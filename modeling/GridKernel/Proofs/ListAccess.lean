import GridKernel.Machine.Run
import GridKernel.March.Nest
import GridKernel.Proofs.ExactValues
import GridKernel.Region
import GridKernel.Stmt.Listing

/-! Accesses to the lists of arrays. An array is aligned when its shape and its halo have one entry
for each of its axes. What is computed from aligned arrays may stop for a cause or where a word
leaves its range, but never at an entry that a list does not have. -/
namespace GridKernel

variable {α β : Type}

/-- A result that does not stop at an access past the end of a list. -/
def WithinLists (r : Result α) : Prop := r ≠ .error .missing

@[simp] theorem withinLists_ok (a : α) : WithinLists (.ok a : Result α) := by simp [WithinLists]

@[simp] theorem withinLists_refuse (c : Cause) : WithinLists (refuse c : Result α) := by
  simp [WithinLists, refuse]

@[simp] theorem withinLists_overflow : WithinLists (.error .overflow : Result α) := by
  simp [WithinLists]

namespace WithinLists

theorem bind {x : Result α} {f : α → Result β} (hx : WithinLists x)
    (hf : ∀ a, x = .ok a → WithinLists (f a)) : WithinLists (x >>= f) := by
  cases x with
  | error e => exact fun h => hx (congrArg _ (Except.error.inj h))
  | ok a => exact hf a rfl

theorem map {x : Result α} (hx : WithinLists x) (f : α → β) : WithinLists (f <$> x) := by
  cases x with
  | error e => exact fun h => hx (congrArg _ (Except.error.inj h))
  | ok a => exact withinLists_ok (f a)

theorem mapM {f : α → Result β} {xs : List α} (h : ∀ x ∈ xs, WithinLists (f x)) :
    WithinLists (xs.mapM f) := by
  induction xs with
  | nil => exact withinLists_ok []
  | cons x xs ih =>
    rw [List.mapM_cons]
    have hrest := ih fun y hy => h y (by simp [hy])
    exact (h x (by simp)).bind fun y _ => hrest.bind fun ys _ => withinLists_ok (y :: ys)

theorem foldlM {f : β → α → Result β} (h : ∀ b x, WithinLists (f b x)) (b : β) (xs : List α) :
    WithinLists (xs.foldlM f b) := by
  induction xs generalizing b with
  | nil => exact withinLists_ok b
  | cons x xs ih =>
    rw [List.foldlM_cons]
    exact (h b x).bind fun c _ => ih c

end WithinLists

/-- A result that stops, if it does, for a cause. -/
def Diagnosed (r : Result α) : Prop := ∀ e, r = .error e → ∃ c, e = .cause c

theorem diagnosed_ok (a : α) : Diagnosed (.ok a : Result α) := by
  intro e h
  cases h

theorem diagnosed_refuse (c : Cause) : Diagnosed (refuse c : Result α) := by
  intro e h
  exact ⟨c, (Except.error.inj h).symm⟩

namespace Diagnosed

theorem withinLists {r : Result α} (h : Diagnosed r) : WithinLists r := by
  intro hmissing
  obtain ⟨c, hc⟩ := h _ hmissing
  cases hc

theorem bind {x : Result α} {f : α → Result β} (hx : Diagnosed x)
    (hf : ∀ a, x = .ok a → Diagnosed (f a)) : Diagnosed (x >>= f) := by
  intro e h
  rcases bind_eq_error.1 h with h | ⟨a, ha, h⟩
  · exact hx e h
  · exact hf a ha e h

theorem map {x : Result α} (hx : Diagnosed x) (f : α → β) : Diagnosed (f <$> x) :=
  fun e h => hx e (map_eq_error.1 h)

end Diagnosed

theorem withinLists_entryAt {xs : List α} {i : Nat} (h : i < xs.length) :
    WithinLists (entryAt xs i) := by
  simp [entryAt, List.getElem?_eq_getElem h]

namespace Word

theorem withinLists_int (n : Int) : WithinLists (int n) := by
  unfold int
  split <;> simp

theorem withinLists_size (n : Nat) : WithinLists (size n) := by
  unfold size
  split <;> simp

end Word

namespace Expr

/-- Adding or subtracting a literal stops at most where its magnitude is no word. -/
theorem withinLists_build_int {op op' : BinaryOp} (hop : op.Opposite op') {e : Expr}
    (he : e.int? = none) (n : Int64) : WithinLists (op.build e (int n)) := by
  rw [build_int hop he]
  split
  · simp
  · split
    · exact (Word.withinLists_int _).bind fun _ _ => withinLists_ok _
    · simp

theorem withinLists_add (e f : Expr) : WithinLists (e.add f) := by
  unfold add
  split
  · exact (Word.withinLists_int _).map _
  · rename_i n hint
    have hbuild := withinLists_build_int (.inl ⟨rfl, rfl⟩) (int?_eq_none.2 hint) n
    rwa [build_int (.inl ⟨rfl, rfl⟩) (int?_eq_none.2 hint)] at hbuild
  · simp
  · simp

theorem withinLists_sub (e f : Expr) : WithinLists (e.sub f) := by
  unfold sub
  split
  · exact (Word.withinLists_int _).map _
  · rename_i n hint
    have hbuild := withinLists_build_int (.inr ⟨rfl, rfl⟩) (int?_eq_none.2 hint) n
    rwa [build_int (.inr ⟨rfl, rfl⟩) (int?_eq_none.2 hint)] at hbuild
  · simp

end Expr

/-- One entry of the shape and of the halo for each axis, and axes of different names. -/
structure GridArray.Aligned (a : GridArray) : Prop where
  shape : a.shape.length = a.rank
  halo : a.halo.length = a.rank
  names : (a.dims.map Dimension.name).Nodup

theorem Identifier.withinLists_check (name : String) : WithinLists (check name) := by
  unfold check
  split <;> simp

theorem Dimension.withinLists_sized (name : String) (size : Expr) :
    WithinLists (sized name size) :=
  (Identifier.withinLists_check name).bind fun _ _ => withinLists_ok _

namespace GridArray

theorem withinLists_named (name : String) (dims : List Dimension) (element : ElementType) :
    WithinLists (named name dims element) := by
  unfold named
  split <;> simp

theorem withinLists_setShape (a : GridArray) (shape : List Expr) :
    WithinLists (a.setShape shape) := by
  unfold setShape
  split <;> simp

theorem withinLists_setHalo (a : GridArray) (halo : List Extent) :
    WithinLists (a.setHalo halo) := by
  unfold setHalo
  split <;> simp

/-- The entries of an aligned array along one of its axes. -/
theorem Aligned.entries {a : GridArray} (ha : a.Aligned) {axis : Nat} (h : axis < a.rank) :
    ∃ halo size, a.halo[axis]? = some halo ∧ a.shape[axis]? = some size := by
  have hhalo : axis < a.halo.length := by rwa [ha.halo]
  have hshape : axis < a.shape.length := by rwa [ha.shape]
  exact ⟨_, _, List.getElem?_eq_getElem hhalo, List.getElem?_eq_getElem hshape⟩

theorem allocated_of_entries {a : GridArray} {axis : Nat} {halo : Extent} {size : Expr}
    (hhalo : a.halo[axis]? = some halo) (hshape : a.shape[axis]? = some size) :
    a.allocated axis = (do
      let width ← Word.addSize halo.left halo.right
      size.add (.ofSize width)) := by
  simp [allocated, entryAt, hhalo, hshape]

theorem Aligned.allocated {a : GridArray} (ha : a.Aligned) {axis : Nat} (h : axis < a.rank) :
    WithinLists (a.allocated axis) := by
  obtain ⟨halo, size, hhalo, hshape⟩ := ha.entries h
  rw [allocated_of_entries hhalo hshape]
  exact (Word.withinLists_size _).bind fun w _ => Expr.withinLists_add _ _

theorem Aligned.viewText {a : GridArray} (ha : a.Aligned) : WithinLists a.viewText := by
  apply WithinLists.bind
  · apply WithinLists.mapM
    intro axis haxis
    exact ha.allocated (List.mem_range.1 (List.mem_of_mem_drop haxis))
  · intro extents _
    exact withinLists_ok _

end GridArray

namespace Stmt

/-- Every array that a statement views is aligned. -/
def ViewsAligned (s : Stmt) : Prop := ∀ a, .view a ∈ s.nodes → a.Aligned

mutual

theorem ViewsAligned.lines :
    (s : Stmt) → s.ViewsAligned → ∀ depth, WithinLists (s.lines depth)
  | .assign target value, _, depth => withinLists_ok _
  | .declare t, _, depth => withinLists_ok _
  | .view a, h, depth => by
    have ha : a.Aligned := h a (by simp [nodes])
    exact ha.viewText.bind fun _ _ => withinLists_ok _
  | .block ss, h, depth => by
    apply ViewsAligned.linesAll ss
    intro a ha
    exact h a (List.mem_cons_of_mem _ ha)
  | .loop head body, h, depth => by
    have hbody : body.ViewsAligned := fun a ha => h a (List.mem_cons_of_mem _ ha)
    exact (ViewsAligned.lines body hbody _).bind fun _ _ => withinLists_ok _
  | .when c body, h, depth => by
    have hbody : body.ViewsAligned := fun a ha => h a (List.mem_cons_of_mem _ ha)
    exact (ViewsAligned.lines body hbody _).bind fun _ _ => withinLists_ok _
  | .ifElse c t e, h, depth => by
    have ht : t.ViewsAligned := fun a ha => h a (by simp [nodes, ha])
    have he : e.ViewsAligned := fun a ha => h a (by simp [nodes, ha])
    apply (ViewsAligned.lines t ht _).bind
    intro thenLines _
    exact (ViewsAligned.lines e he _).bind fun _ _ => withinLists_ok _
  | .kernel signature body, h, depth => by
    have hbody : body.ViewsAligned := fun a ha => h a (List.mem_cons_of_mem _ ha)
    exact (ViewsAligned.lines body hbody _).bind fun _ _ => withinLists_ok _
termination_by structural s => s

theorem ViewsAligned.linesAll :
    (ss : List Stmt) → (∀ a, .view a ∈ nodesAll ss → a.Aligned) →
      ∀ depth, WithinLists (linesAll depth ss)
  | [], _, depth => withinLists_ok _
  | s :: ss, h, depth => by
    have hs : s.ViewsAligned := fun a ha => h a (by simp [nodesAll, ha])
    have hss : ∀ a, .view a ∈ nodesAll ss → a.Aligned := fun a ha => h a (by simp [nodesAll, ha])
    apply (ViewsAligned.lines s hs _).bind
    intro first _
    exact (ViewsAligned.linesAll ss hss _).bind fun _ _ => withinLists_ok _
termination_by structural ss => ss

end

theorem ViewsAligned.listing {s : Stmt} (h : s.ViewsAligned) : WithinLists s.listing :=
  (ViewsAligned.lines s h 0).bind fun _ _ => withinLists_ok _

/-- The parameters of any statement are found or refused. -/
theorem withinLists_parameters (s : Stmt) : WithinLists s.parameters := by
  have hadd : ∀ met use, WithinLists (addUse met use) := by
    intro met use
    unfold addUse
    split
    · exact withinLists_refuse _
    · split
      · split <;> simp
      · simp
  exact (WithinLists.foldlM hadd [] s.uses).bind fun _ _ => withinLists_ok _

end Stmt

theorem withinLists_splitAxes (dims : List Dimension) (pins : Pins) :
    WithinLists (splitAxes dims pins) := by
  unfold splitAxes
  split <;> simp

theorem withinLists_checkPartition (free : List String) (axes : List (Dimension × AxisClass)) :
    WithinLists (checkPartition free axes) := by
  induction axes with
  | nil => exact withinLists_ok _
  | cons axis axes ih =>
    unfold checkPartition
    split
    · exact withinLists_refuse _
    · exact withinLists_refuse _
    · exact ih

theorem withinLists_splitAxesWith (dims : List Dimension) (pins : Pins) (free : List String) :
    WithinLists (splitAxesWith dims pins free) := by
  apply (withinLists_splitAxes dims pins).bind
  intro classes _
  split
  · exact withinLists_refuse _
  · exact (withinLists_checkPartition _ _).bind fun _ _ => withinLists_ok _

namespace Region

theorem withinLists_gatherSplit (a : GridArray) (classes : List AxisClass) :
    WithinLists (gatherSplit a classes) := by
  unfold gatherSplit
  apply (GridArray.withinLists_named _ _ _).bind
  intro b _
  apply (GridArray.withinLists_setShape b _).bind
  intro dst _
  exact (Stmt.withinLists_parameters _).bind fun _ _ => withinLists_ok _

/-- A gather reads the axes of its array only. -/
theorem withinLists_gather (a : GridArray) (pins : Pins) : WithinLists (gather a pins) :=
  (withinLists_splitAxes _ _).bind fun _ _ => withinLists_gatherSplit _ _

theorem withinLists_gatherWith (a : GridArray) (pins : Pins) (free : List String) :
    WithinLists (gatherWith a pins free) :=
  (withinLists_splitAxesWith _ _ _).bind fun _ _ => withinLists_gatherSplit _ _

end Region

/-- The kernel of an entry point is built from the uses of its statements. -/
theorem EntryPoint.withinLists_toKernel (e : EntryPoint) : WithinLists e.toKernel := by
  unfold toKernel
  split
  · exact withinLists_refuse _
  · apply (Stmt.withinLists_parameters _).bind
    intro used _
    split <;> simp

namespace March

variable (m : March)

theorem withinLists_slotAt (index : Expr) : WithinLists (m.slotAt index) := by
  have hoffset : WithinLists index.offset? := by
    unfold Expr.offset?
    split
    · exact withinLists_ok _
    · exact withinLists_ok _
    · exact withinLists_ok _
    · exact (Word.withinLists_int _).bind fun _ _ => withinLists_ok _
    · exact withinLists_ok _
  have hslot : ∀ offset, WithinLists (m.slotOf offset) := by
    intro offset
    unfold slotOf
    split
    · exact Word.withinLists_int _
    · exact Word.withinLists_int _
  apply hoffset.bind
  intro offset? _
  split
  · exact withinLists_refuse _
  · split
    · exact withinLists_refuse _
    · apply (hslot _).bind
      intro slot _
      split
      · exact withinLists_ok _
      · exact (Word.withinLists_size _).bind fun _ _ => withinLists_refuse _

mutual

theorem withinLists_toSlots : (e : Expr) → WithinLists (m.toSlots e)
  | .access a es => by
    rw [toSlots]
    split
    · exact (withinLists_ringIndices a.dims es).bind fun _ _ => withinLists_ok _
    · exact (withinLists_toSlotsAll es).bind fun _ _ => withinLists_ok _
  | .neg e => (withinLists_toSlots e).bind fun _ _ => withinLists_ok _
  | .binary op l r => by
    apply (withinLists_toSlots l).bind
    intro left _
    exact (withinLists_toSlots r).bind fun _ _ => withinLists_ok _
  | .int _ | .float _ | .symbol _ | .scalar _ | .dim _ | .size _ => withinLists_ok _
termination_by structural e => e

theorem withinLists_toSlotsAll : (es : List Expr) → WithinLists (m.toSlotsAll es)
  | [] => withinLists_ok _
  | e :: es => by
    apply (withinLists_toSlots e).bind
    intro first _
    exact (withinLists_toSlotsAll es).bind fun _ _ => withinLists_ok _
termination_by structural es => es

/-- The indices of a reference are treated as long as its array has axes for them. -/
theorem withinLists_ringIndices (dims : List Dimension) :
    (es : List Expr) → WithinLists (m.ringIndices dims es)
  | [] => by
    rw [ringIndices]
    exact withinLists_ok _
  | e :: es => by
    cases dims with
    | nil => exact withinLists_ok _
    | cons d ds =>
      apply WithinLists.bind
      · split
        · exact m.withinLists_slotAt e
        · exact withinLists_toSlots e
      · intro first _
        exact (withinLists_ringIndices ds es).bind fun _ _ => withinLists_ok _
termination_by structural es => es

end

theorem withinLists_resolveExpr (e : Expr) : WithinLists (m.resolveExpr e) := by
  apply WithinLists.bind
  · unfold toRing
    split
    · exact m.withinLists_toSlots e
    · exact withinLists_ok _
  · intro slotted _
    exact withinLists_ok _

theorem withinLists_resolve (eqn : Equation) : WithinLists (m.resolve eqn) := by
  apply (m.withinLists_resolveExpr eqn.lhs).bind
  intro target _
  exact (m.withinLists_resolveExpr eqn.rhs).bind fun _ _ => withinLists_ok _

theorem withinLists_guardedStmt (g : Guarded) : WithinLists (m.guardedStmt g) := by
  apply (m.withinLists_resolve g.thenAssign).bind
  intro thenBody _
  split
  · exact withinLists_ok _
  · exact (m.withinLists_resolve _).bind fun _ _ => withinLists_ok _

theorem withinLists_instantiate (symbols : List String) (eqn : Equation) (row : List Expr) :
    WithinLists (m.instantiate symbols eqn row) := by
  unfold instantiate
  split
  · exact m.withinLists_resolve _
  · exact withinLists_refuse _

theorem withinLists_loopNest (point : Stmt) : WithinLists (m.loopNest point) := by
  have hbounds : WithinLists m.timeBounds := by
    unfold timeBounds
    dsimp only
    split
    · exact (Word.withinLists_int _).bind fun _ _ => withinLists_ok _
    · exact (Word.withinLists_int _).bind fun _ _ => withinLists_ok _
  exact hbounds.bind fun _ _ => withinLists_ok _

theorem withinLists_build (symbols : List String) (equations : List Equation)
    (rows : List (List Expr)) : WithinLists (m.build symbols equations rows) := by
  unfold build
  split
  · exact withinLists_refuse _
  · apply (WithinLists.mapM fun g _ => m.withinLists_guardedStmt g).bind
    intro before _
    apply (WithinLists.mapM fun p _ => m.withinLists_instantiate symbols p.1 p.2).bind
    intro updates _
    apply (WithinLists.mapM fun g _ => m.withinLists_guardedStmt g).bind
    intro after _
    exact m.withinLists_loopNest _

/-- A march is built from its axes and its source, whatever the lists of its arrays. -/
theorem withinLists_entryPoint : WithinLists m.entryPoint := by
  unfold entryPoint
  split
  · exact withinLists_refuse _
  · exact (m.withinLists_loopNest _).bind fun _ _ => withinLists_ok _
  · exact (m.withinLists_build _ _ _).bind fun _ _ => withinLists_ok _

end March

/-- A run that does not stop at an access past the end of a list. -/
def Outcome.WithinLists {R : Type} (o : Outcome R) : Prop := o.fault? ≠ some .missing

namespace Outcome

variable {R : Type}

theorem withinLists_done (m : Machine R) : (done m).WithinLists := by
  intro h
  cases h

theorem WithinLists.andThen {o : Outcome R} {f : Machine R → Outcome R} (h : o.WithinLists)
    (hf : ∀ m, (f m).WithinLists) : (o.andThen f).WithinLists := by
  unfold Outcome.andThen
  split
  · exact hf _
  · exact h

theorem withinLists_attempt {m : Machine R} {value : Result α} {f : α → Outcome R}
    (h : GridKernel.WithinLists value) (hf : ∀ x, (f x).WithinLists) :
    (attempt m value f).WithinLists := by
  cases value with
  | error e => exact fun hmissing => h (congrArg _ (Option.some.inj hmissing))
  | ok x => exact hf x

end Outcome

namespace Machine

variable {R : Type} [Arithmetic R]

theorem diagnosed_bound (value? : Option α) (c : Cause) : Diagnosed (bound value? c) := by
  unfold bound
  split
  · exact diagnosed_ok _
  · exact diagnosed_refuse c

mutual

/-- A value is found or refused, whatever the lists of an array. -/
theorem diagnosed_eval (m : Machine R) : (e : Expr) → Diagnosed (m.eval e)
  | .int n => diagnosed_ok _
  | .float x => diagnosed_ok _
  | .symbol name => diagnosed_refuse _
  | .scalar s => diagnosed_bound _ _
  | .dim d => (diagnosed_bound _ _).map _
  | .size name => (diagnosed_bound _ _).map _
  | .access a indices => by
    apply (diagnosed_evalIndices m indices).bind
    intro is _
    exact (diagnosed_bound _ _).bind fun _ _ => diagnosed_bound _ _
  | .neg e => (diagnosed_eval m e).map _
  | .binary op l r => by
    apply (diagnosed_eval m l).bind
    intro x _
    exact (diagnosed_eval m r).bind fun _ _ => diagnosed_ok _
termination_by structural e => e

theorem diagnosed_evalIndices (m : Machine R) : (es : List Expr) → Diagnosed (m.evalIndices es)
  | [] => diagnosed_ok _
  | e :: es => by
    apply (diagnosed_eval m e).bind
    intro x _
    apply (diagnosed_bound _ _).bind
    intro i _
    exact (diagnosed_evalIndices m es).bind fun _ _ => diagnosed_ok _
termination_by structural es => es

end

theorem diagnosed_evalIndex (m : Machine R) (e : Expr) : Diagnosed (m.evalIndex e) :=
  (diagnosed_eval m e).bind fun _ _ => diagnosed_bound _ _

theorem diagnosed_store (m : Machine R) (target : Expr) (value : R) :
    Diagnosed (m.store target value) := by
  unfold store
  split
  · apply (diagnosed_evalIndices m _).bind
    intro is _
    apply (diagnosed_bound _ _).bind
    intro b _
    exact (diagnosed_bound _ _).bind fun _ _ => diagnosed_ok _
  · exact diagnosed_ok _
  · exact diagnosed_refuse _

theorem withinLists_companionIndex (m : Machine R) (d : Dimension) (trip : Int64) :
    WithinLists (m.companionIndex d trip) := by
  unfold companionIndex
  split
  · apply (diagnosed_evalIndex m _).withinLists.bind
    intro first _
    apply (diagnosed_evalIndex m _).withinLists.bind
    intro step _
    exact (Word.withinLists_int _).bind fun _ _ => Word.withinLists_int _
  · exact withinLists_ok _

theorem withinLists_checkView (m : Machine R) {a : GridArray} (ha : a.Aligned) :
    WithinLists (m.checkView a) := by
  apply WithinLists.bind
  · apply WithinLists.mapM
    intro axis haxis
    apply (ha.allocated (List.mem_range.1 haxis)).bind
    intro extent _
    exact (diagnosed_evalIndex m extent).withinLists
  · intro expected _
    apply (diagnosed_bound _ _).withinLists.bind
    intro b _
    split
    · exact withinLists_ok _
    · exact withinLists_refuse _

theorem withinLists_bindCompanions (trip : Int64) (ds : List Dimension) (m : Machine R) :
    (bindCompanions trip ds m).WithinLists := by
  induction ds generalizing m with
  | nil => exact Outcome.withinLists_done m
  | cons d ds ih =>
    apply Outcome.withinLists_attempt (withinLists_companionIndex m d trip)
    intro i
    exact ih _

theorem withinLists_runTrips (head : LoopHead) {body : Machine R → Outcome R}
    (hbody : ∀ m, (body m).WithinLists) (n : Nat) (index trip : Int64) (m : Machine R) :
    (runTrips head body n index trip m).WithinLists := by
  induction n generalizing index trip m with
  | zero => exact Outcome.withinLists_done m
  | succ n ih =>
    apply ((withinLists_bindCompanions _ _ _).andThen hbody).andThen
    intro m
    apply Outcome.withinLists_attempt (Word.withinLists_int _)
    intro index
    apply Outcome.withinLists_attempt (Word.withinLists_int _)
    intro trip
    exact ih index trip m

theorem withinLists_runLoop (head : LoopHead) {body : Machine R → Outcome R}
    (hbody : ∀ m, (body m).WithinLists) (m : Machine R) :
    (runLoop head body m).WithinLists := by
  apply Outcome.withinLists_attempt (diagnosed_evalIndex m _).withinLists
  intro lower
  apply Outcome.withinLists_attempt (diagnosed_evalIndex m _).withinLists
  intro upper
  split
  · simp [Outcome.WithinLists]
  · exact withinLists_runTrips head hbody _ _ _ m

mutual

theorem withinLists_run : (s : Stmt) → s.ViewsAligned → ∀ m : Machine R, (run s m).WithinLists
  | .assign target value, _, m => by
    apply Outcome.withinLists_attempt (diagnosed_eval m value).withinLists
    intro x
    exact Outcome.withinLists_attempt (diagnosed_store m target x).withinLists
      Outcome.withinLists_done
  | .loop head body, h, m => by
    have hbody : body.ViewsAligned := fun a ha => h a (List.mem_cons_of_mem _ ha)
    exact withinLists_runLoop head (withinLists_run body hbody) m
  | .when c body, h, m => by
    have hbody : body.ViewsAligned := fun a ha => h a (List.mem_cons_of_mem _ ha)
    apply Outcome.withinLists_attempt (diagnosed_eval m c).withinLists
    intro x
    split
    · exact withinLists_run body hbody m
    · exact Outcome.withinLists_done m
  | .ifElse c t e, h, m => by
    have ht : t.ViewsAligned := fun a ha => h a (by simp [Stmt.nodes, ha])
    have he : e.ViewsAligned := fun a ha => h a (by simp [Stmt.nodes, ha])
    apply Outcome.withinLists_attempt (diagnosed_eval m c).withinLists
    intro x
    split
    · exact withinLists_run t ht m
    · exact withinLists_run e he m
  | .block ss, h, m => withinLists_runAll ss (fun a ha => h a (List.mem_cons_of_mem _ ha)) m
  | .view a, h, m => by
    have ha : a.Aligned := h a (by simp [Stmt.nodes])
    exact Outcome.withinLists_attempt (withinLists_checkView m ha) fun _ =>
      Outcome.withinLists_done m
  | .declare s, _, m => Outcome.withinLists_done _
  | .kernel signature body, h, m =>
    withinLists_run body (fun a ha => h a (List.mem_cons_of_mem _ ha)) m
termination_by structural s => s

theorem withinLists_runAll : (ss : List Stmt) → (∀ a, .view a ∈ Stmt.nodesAll ss → a.Aligned) →
    ∀ m : Machine R, (runAll ss m).WithinLists
  | [], _, m => Outcome.withinLists_done m
  | s :: ss, h, m => by
    have hs : s.ViewsAligned := fun a ha => h a (by simp [Stmt.nodesAll, ha])
    have hss : ∀ a, .view a ∈ Stmt.nodesAll ss → a.Aligned :=
      fun a ha => h a (by simp [Stmt.nodesAll, ha])
    exact (withinLists_run s hs m).andThen (withinLists_runAll ss hss)
termination_by structural ss => ss

end

end Machine

end GridKernel
