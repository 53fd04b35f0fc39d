import GridKernel.Proofs.Evaluation
import GridKernel.Proofs.Frames
import GridKernel.Proofs.Uses

/-! Runs of one statement in two machines. A relation between machines that every step of the
statement keeps holds at the end of both runs, which stop with the same fault or not at all. Hence a
statement reads nothing but its parameters, the sizes of axes and the extents that it checks. -/
namespace GridKernel

variable {R : Type}

namespace Outcome

/-- Two outcomes have the same fault, if any, and related machines. -/
def Alike (S : Machine R → Machine R → Prop) (o o' : Outcome R) : Prop :=
  o.fault? = o'.fault? ∧ S o.machine o'.machine

variable {S S' : Machine R → Machine R → Prop}

theorem alike_done {m m' : Machine R} : (done m).Alike S (done m') ↔ S m m' := by
  simp [Alike]

theorem Alike.mono {o o' : Outcome R} (h : o.Alike S o') (hS : ∀ m m', S m m' → S' m m') :
    o.Alike S' o' := ⟨h.1, hS _ _ h.2⟩

/-- A second relation may hold from the first outcome on, if it is weaker. -/
theorem Alike.andThen_mono {o o' : Outcome R} {f f' : Machine R → Outcome R} (h : o.Alike S o')
    (hS : ∀ m m', S m m' → S' m m') (hf : ∀ m m', S m m' → (f m).Alike S' (f' m')) :
    (o.andThen f).Alike S' (o'.andThen f') := by
  obtain ⟨hfault, hstart⟩ := h
  unfold Outcome.andThen
  rw [← hfault]
  split
  · exact hf _ _ hstart
  · exact ⟨hfault, hS _ _ hstart⟩

theorem Alike.andThen {o o' : Outcome R} {f f' : Machine R → Outcome R} (h : o.Alike S o')
    (hf : ∀ m m', S m m' → (f m).Alike S (f' m')) : (o.andThen f).Alike S (o'.andThen f') :=
  h.andThen_mono (fun _ _ => id) hf

theorem Alike.attempt {α : Type} {m m' : Machine R} {value value' : Result α}
    {f f' : α → Outcome R} (h : S m m') (hvalue : value = value')
    (hf : ∀ x, value = .ok x → (f x).Alike S (f' x)) :
    (Outcome.attempt m value f).Alike S (Outcome.attempt m' value' f') := by
  subst hvalue
  cases value with
  | error e => exact ⟨rfl, h⟩
  | ok x => exact hf x rfl

end Outcome

namespace Machine

variable [Arithmetic R]

/-- The step that a statement itself takes is the same in related machines, and keeps them
related. -/
def StepRelates (S : Machine R → Machine R → Prop) : Stmt → Prop
  | .assign target value => ∀ m m', S m m' →
      (run (.assign target value) m).Alike S (run (.assign target value) m')
  | .loop head _ => (∀ name ∈ head.bound, ∀ m m' i, S m m' →
      S (m.bindIndex name i) (m'.bindIndex name i)) ∧ ∀ m m', S m m' →
        m.evalIndex head.bounds.lower = m'.evalIndex head.bounds.lower ∧
        m.evalIndex head.bounds.upper = m'.evalIndex head.bounds.upper ∧
        ∀ d ∈ head.companions, ∀ trip, m.companionIndex d trip = m'.companionIndex d trip
  | .when c _ => ∀ m m', S m m' → m.eval c = m'.eval c
  | .ifElse c _ _ => ∀ m m', S m m' → m.eval c = m'.eval c
  | .view a => ∀ m m', S m m' → m.checkView a = m'.checkView a
  | .declare s => ∀ m m', S m m' →
      S (m.bindScalar s.name Arithmetic.zero) (m'.bindScalar s.name Arithmetic.zero)
  | _ => True

variable {S : Machine R → Machine R → Prop} {m m' : Machine R}

theorem bindCompanions_relates {trip : Int64} {ds : List Dimension}
    (hbind : ∀ name ∈ ds.map Dimension.name, ∀ m m' i, S m m' →
      S (m.bindIndex name i) (m'.bindIndex name i))
    (hindex : ∀ m m', S m m' → ∀ d ∈ ds, m.companionIndex d trip = m'.companionIndex d trip)
    (h : S m m') : (bindCompanions trip ds m).Alike S (bindCompanions trip ds m') := by
  induction ds generalizing m m' with
  | nil => exact Outcome.alike_done.2 h
  | cons d ds ih =>
    refine .attempt h (hindex m m' h d (by simp)) fun i _ => ?_
    refine ih (fun name hn => hbind name (by simp_all)) (fun m m' h d hd => ?_) ?_
    · exact hindex m m' h d (by simp [hd])
    · exact hbind d.name (by simp) m m' i h

/-- What every pass of a loop keeps between two machines, its remaining trips keep. -/
theorem runTrips_of_pass {head : LoopHead} {body body' : Machine R → Outcome R}
    (hpass : ∀ index trip m m', S m m' →
      ((bindCompanions trip head.companions (m.bindIndex head.dim.name index)).andThen body).Alike S
        ((bindCompanions trip head.companions (m'.bindIndex head.dim.name index)).andThen body'))
    {n : Nat} {index trip : Int64} (h : S m m') :
    (runTrips head body n index trip m).Alike S (runTrips head body' n index trip m') := by
  induction n generalizing index trip m m' with
  | zero => exact Outcome.alike_done.2 h
  | succ n ih =>
    refine (hpass index trip m m' h).andThen fun m m' h => ?_
    exact .attempt h rfl fun index _ => .attempt h rfl fun trip _ => ih h

theorem runLoop_of_pass {head : LoopHead} {body body' : Machine R → Outcome R}
    (hlower : m.evalIndex head.bounds.lower = m'.evalIndex head.bounds.lower)
    (hupper : m.evalIndex head.bounds.upper = m'.evalIndex head.bounds.upper)
    (hpass : ∀ index trip m m', S m m' →
      ((bindCompanions trip head.companions (m.bindIndex head.dim.name index)).andThen body).Alike S
        ((bindCompanions trip head.companions (m'.bindIndex head.dim.name index)).andThen body'))
    (h : S m m') : (runLoop head body m).Alike S (runLoop head body' m') := by
  refine .attempt h hlower fun lower _ => .attempt h hupper fun upper _ => ?_
  split
  · exact ⟨rfl, h⟩
  · exact runTrips_of_pass hpass h

theorem runLoop_relates {head : LoopHead} {body : Stmt} (hhead : StepRelates S (.loop head body))
    (hbody : ∀ m m', S m m' → (run body m).Alike S (run body m')) (h : S m m') :
    (runLoop head (run body) m).Alike S (runLoop head (run body) m') := by
  obtain ⟨hlower, hupper, -⟩ := hhead.2 m m' h
  refine runLoop_of_pass hlower hupper (fun index trip m m' h => ?_) h
  have henter : S (m.bindIndex head.dim.name index) (m'.bindIndex head.dim.name index) :=
    hhead.1 _ (by simp [LoopHead.bound]) m m' index h
  have hcompanions : (bindCompanions trip head.companions
      (m.bindIndex head.dim.name index)).Alike S (bindCompanions trip head.companions
        (m'.bindIndex head.dim.name index)) :=
    bindCompanions_relates (fun name hn => hhead.1 name (by simp [LoopHead.bound, hn]))
      (fun m m' h d hd => (hhead.2 m m' h).2.2 d hd trip) henter
  exact hcompanions.andThen hbody

/-- A relation that indices do not matter to is kept by a nest of loops that count up from zero, if
the statement inside keeps it between machines with the same indices of all loops. -/
theorem run_nest_relates {heads : List LoopHead} {cell : Stmt}
    (hup : ∀ head ∈ heads, ∃ d e order, head = ⟨d, .upTo e, [], order⟩)
    (hnames : (heads.map fun head => head.dim.name).Nodup)
    (hinner : ∀ head ∈ heads, ∀ inner ∈ cell.loops, head.dim.name ∉ inner.bound)
    (hbind : ∀ m m' name i, S m m' → S (m.bindIndex name i) (m'.bindIndex name i))
    (hbound : ∀ head ∈ heads, ∀ m m', S m m' →
      m.evalIndex head.bounds.upper = m'.evalIndex head.bounds.upper)
    (hcell : ∀ m m', S m m' → (∀ head ∈ heads,
      m.indices[head.dim.name]? = m'.indices[head.dim.name]?) → (run cell m).Alike S (run cell m'))
    (h : S m m') : (run (cell.nest heads) m).Alike S (run (cell.nest heads) m') := by
  induction heads generalizing cell m m' with
  | nil => exact hcell m m' h (by simp)
  | cons head heads ih =>
    obtain ⟨hfresh, hrest⟩ := List.nodup_cons.1 hnames
    obtain ⟨d, e, order, rfl⟩ := hup head (by simp)
    refine ih (fun head hh => hup head (by simp [hh])) hrest ?_
      (fun head hh => hbound head (by simp [hh])) ?_ h
    · intro outer houter inner hin
      rw [Stmt.loops, Stmt.nodes, List.filterMap_cons] at hin
      rcases List.mem_cons.1 hin with rfl | hin
      · have hne : outer.dim.name ≠ d.name := by
          intro heq
          exact hfresh (List.mem_map.2 ⟨outer, houter, heq⟩)
        simpa [LoopHead.bound] using hne
      · exact hinner outer (by simp [houter]) inner hin
    · intro m m' hm hon
      -- the loops around this one have the same indices on all of its passes
      let T (m m' : Machine R) := S m m' ∧
        ∀ outer ∈ heads, m.indices[outer.dim.name]? = m'.indices[outer.dim.name]?
      have hpass : ∀ index m m', T m m' → (run cell (m.bindIndex d.name index)).Alike T
          (run cell (m'.bindIndex d.name index)) := by
        intro index m m' hT
        have hentered : ∀ outer ∈ (⟨d, .upTo e, [], order⟩ : LoopHead) :: heads,
            (m.bindIndex d.name index).indices[outer.dim.name]? =
              (m'.bindIndex d.name index).indices[outer.dim.name]? := by
          intro outer houter
          rcases List.mem_cons.1 houter with rfl | houter
          · simp
          · simp [hT.2 outer houter]
        obtain ⟨hfault, hS⟩ := hcell _ _ (hbind m m' d.name index hT.1) hentered
        refine ⟨hfault, hS, fun outer houter => ?_⟩
        have hloops := hinner outer (by simp [houter])
        rw [run_indices hloops, run_indices hloops, hentered outer (by simp [houter])]
      have hloop : (runLoop ⟨d, .upTo e, [], order⟩ (run cell) m).Alike T
          (runLoop ⟨d, .upTo e, [], order⟩ (run cell) m') :=
        runLoop_of_pass rfl (hbound _ (by simp) m m' hm) (fun index _ => hpass index) ⟨hm, hon⟩
      exact ⟨hloop.1, hloop.2.1⟩

mutual

/-- What every step of a statement keeps between two machines, its two runs keep. -/
theorem run_relates : (s : Stmt) → (∀ x ∈ s.nodes, StepRelates S x) → ∀ m m', S m m' →
    (run s m).Alike S (run s m')
  | .assign target value, hs, m, m', h => by
    have hassign : StepRelates S (.assign target value) := hs _ (by simp [Stmt.nodes])
    exact hassign m m' h
  | .loop head body, hs, m, m', h => by
    have hhead : StepRelates S (.loop head body) := hs _ (by simp [Stmt.nodes])
    exact runLoop_relates hhead (run_relates body fun x hx => hs x (by simp [Stmt.nodes, hx])) h
  | .when c body, hs, m, m', h => by
    have hc : StepRelates S (.when c body) := hs _ (by simp [Stmt.nodes])
    refine .attempt h (hc m m' h) fun x _ => ?_
    split
    · exact run_relates body (fun x hx => hs x (by simp [Stmt.nodes, hx])) m m' h
    · exact Outcome.alike_done.2 h
  | .ifElse c t e, hs, m, m', h => by
    have hc : StepRelates S (.ifElse c t e) := hs _ (by simp [Stmt.nodes])
    refine .attempt h (hc m m' h) fun x _ => ?_
    split
    · exact run_relates t (fun x hx => hs x (by simp [Stmt.nodes, hx])) m m' h
    · exact run_relates e (fun x hx => hs x (by simp [Stmt.nodes, hx])) m m' h
  | .block body, hs, m, m', h => by
    exact runAll_relates body (fun x hx => hs x (by simp [Stmt.nodes, hx])) m m' h
  | .view a, hs, m, m', h => by
    have ha : StepRelates S (.view a) := hs _ (by simp [Stmt.nodes])
    exact .attempt h (ha m m' h) fun _ _ => Outcome.alike_done.2 h
  | .declare s, hs, m, m', h => by
    have hdeclare : StepRelates S (.declare s) := hs _ (by simp [Stmt.nodes])
    exact Outcome.alike_done.2 (hdeclare m m' h)
  | .kernel _ body, hs, m, m', h => by
    exact run_relates body (fun x hx => hs x (by simp [Stmt.nodes, hx])) m m' h
termination_by structural s => s

theorem runAll_relates : (ss : List Stmt) → (∀ x ∈ Stmt.nodesAll ss, StepRelates S x) →
    ∀ m m', S m m' → (runAll ss m).Alike S (runAll ss m')
  | [], _, _, _, h => Outcome.alike_done.2 h
  | s :: ss, hs, m, m', h => by
    refine (run_relates s (fun x hx => hs x (by simp [Stmt.nodesAll, hx])) m m' h).andThen ?_
    exact runAll_relates ss fun x hx => hs x (by simp [Stmt.nodesAll, hx])
termination_by structural ss => ss

end

section Bindings
omit [Arithmetic R]

/-- The machines `n` and `n'` bind alike whatever `m` and `m'` bind alike. -/
structure AlikeSince (m m' n n' : Machine R) : Prop where
  arrays (name : String) (h : m.arrays[name]? = m'.arrays[name]?) :
    n.arrays[name]? = n'.arrays[name]?
  scalars (name : String) (h : m.scalars[name]? = m'.scalars[name]?) :
    n.scalars[name]? = n'.scalars[name]?
  sizes (name : String) (h : m.sizes[name]? = m'.sizes[name]?) : n.sizes[name]? = n'.sizes[name]?
  indices (name : String) (h : m.indices[name]? = m'.indices[name]?) :
    n.indices[name]? = n'.indices[name]?

namespace AlikeSince

variable {n n' : Machine R}

theorem refl (m m' : Machine R) : AlikeSince m m' m m' :=
  ⟨fun _ => id, fun _ => id, fun _ => id, fun _ => id⟩

theorem sameAt (h : AlikeSince m m' n n') {e : Expr} (he : m.SameAt m' e) : n.SameAt n' e := by
  cases e with
  | scalar s => exact h.scalars s.name he
  | dim d => exact h.indices d.name he
  | size name => exact h.sizes name he
  | access a es => exact h.arrays a.name he
  | _ => trivial

theorem bindArray (h : AlikeSince m m' n n') (name : String) (b : Buffer R) :
    AlikeSince m m' (n.bindArray name b) (n'.bindArray name b) := by
  refine ⟨fun key hkey => ?_, h.scalars, h.sizes, h.indices⟩
  simp [h.arrays key hkey]

theorem bindScalar (h : AlikeSince m m' n n') (name : String) (x : R) :
    AlikeSince m m' (n.bindScalar name x) (n'.bindScalar name x) := by
  refine ⟨h.arrays, fun key hkey => ?_, h.sizes, h.indices⟩
  simp [h.scalars key hkey]

theorem bindIndex (h : AlikeSince m m' n n') (name : String) (i : Int64) :
    AlikeSince m m' (n.bindIndex name i) (n'.bindIndex name i) := by
  refine ⟨h.arrays, h.scalars, h.sizes, fun key hkey => ?_⟩
  simp [h.indices key hkey]

end AlikeSince
end Bindings

namespace AlikeSince

variable {n n' : Machine R}

theorem eval (h : AlikeSince m m' n n') {e : Expr} (he : ∀ x ∈ e.nodes, m.SameAt m' x) :
    n.eval e = n'.eval e :=
  eval_congr e fun x hx => h.sameAt (he x hx)

theorem evalIndex (h : AlikeSince m m' n n') {e : Expr} (he : ∀ x ∈ e.nodes, m.SameAt m' x) :
    n.evalIndex e = n'.evalIndex e := by
  rw [Machine.evalIndex, Machine.evalIndex, h.eval he]

theorem companionIndex (h : AlikeSince m m' n n') {d : Dimension}
    (hd : ∀ e ∈ d.stepping, ∀ x ∈ e.nodes, m.SameAt m' x) (trip : Int64) :
    n.companionIndex d trip = n'.companionIndex d trip := by
  unfold Machine.companionIndex
  cases hrole : d.role with
  | incremented parent start step =>
    simp only [Dimension.stepping, hrole, List.mem_cons, List.not_mem_nil, or_false,
      forall_eq_or_imp, forall_eq] at hd
    simp only [h.evalIndex hd.1, h.evalIndex hd.2]
  | _ => rfl

theorem checkView (h : AlikeSince m m' n n') {a : GridArray}
    (ha : m.arrays[a.name]? = m'.arrays[a.name]?)
    (hextents : ∀ axis e, a.allocated axis = .ok e → ∀ x ∈ e.nodes, m.SameAt m' x) :
    n.checkView a = n'.checkView a := by
  have hexpected : ∀ axis, (do n.evalIndex (← a.allocated axis) : Result Int64) =
      (do n'.evalIndex (← a.allocated axis) : Result Int64) := by
    intro axis
    cases he : a.allocated axis with
    | error fault => rfl
    | ok e => exact h.evalIndex (hextents axis e he)
  simp only [Machine.checkView, array, h.arrays a.name ha, hexpected]

/-- An assignment in machines that read its sides alike. -/
theorem assign (h : AlikeSince m m' n n') {target value : Expr}
    (htarget : ∀ x ∈ target.nodes, m.SameAt m' x) (hvalue : ∀ x ∈ value.nodes, m.SameAt m' x) :
    (run (.assign target value) n).Alike (AlikeSince m m') (run (.assign target value) n') := by
  refine .attempt h (h.eval hvalue) fun x _ => ?_
  cases target with
  | access a es =>
    have ha : n.arrays[a.name]? = n'.arrays[a.name]? :=
      h.arrays a.name (htarget (.access a es) (by simp [Expr.nodes]))
    have hes : n.evalIndices es = n'.evalIndices es :=
      evalIndices_congr es fun x hx => h.sameAt (htarget x (by simp [Expr.nodes, hx]))
    simp only [store, hes, array, ha]
    cases n'.evalIndices es with
    | error e => exact ⟨rfl, h⟩
    | ok is =>
      cases n'.arrays[a.name]? with
      | none => exact ⟨rfl, h⟩
      | some b =>
        simp only [ok_bind, bound]
        cases hset : b.set? is x with
        | none => exact ⟨rfl, h⟩
        | some c => exact ⟨rfl, h.bindArray a.name c⟩
  | scalar s => exact ⟨rfl, h.bindScalar s.name x⟩
  | _ => exact ⟨rfl, h⟩

end AlikeSince

/-- Two machines that bind alike what a statement mentions and the extents that it checks run it
alike. -/
theorem run_alike {s : Stmt}
    (hexprs : ∀ x ∈ s.nodes, ∀ e ∈ x.exprs, ∀ n ∈ e.nodes, m.SameAt m' n)
    (hviews : ∀ a, .view a ∈ s.nodes → m.arrays[a.name]? = m'.arrays[a.name]? ∧
      ∀ axis e, a.allocated axis = .ok e → ∀ n ∈ e.nodes, m.SameAt m' n) :
    (run s m).Alike (AlikeSince m m') (run s m') := by
  refine run_relates s (fun x hx => ?_) m m' (.refl m m')
  have hx' := hexprs x hx
  cases x with
  | assign target value =>
    exact fun n n' h => h.assign (hx' target (by simp [Stmt.exprs]))
      (hx' value (by simp [Stmt.exprs]))
  | loop head body =>
    refine ⟨fun name _ n n' i h => h.bindIndex name i, fun n n' h => ⟨?_, ?_, ?_⟩⟩
    · exact h.evalIndex (hx' _ (by simp [Stmt.exprs]))
    · exact h.evalIndex (hx' _ (by simp [Stmt.exprs]))
    · intro d hd trip
      refine h.companionIndex (fun e he => hx' e ?_) trip
      simp only [Stmt.exprs, List.mem_cons, List.mem_flatMap]
      exact .inr (.inr ⟨d, hd, he⟩)
  | when c body => exact fun n n' h => h.eval (hx' c (by simp [Stmt.exprs]))
  | ifElse c t e => exact fun n n' h => h.eval (hx' c (by simp [Stmt.exprs]))
  | view a => exact fun n n' h => h.checkView (hviews a hx).1 (hviews a hx).2
  | declare s => exact fun n n' h => h.bindScalar s.name _
  | block body => trivial
  | kernel signature body => trivial

section Parameters

omit [Arithmetic R]

/-- Two machines bind a parameter alike. -/
def SameParameter (m m' : Machine R) : Parameter → Prop
  | .array a => m.arrays[a.name]? = m'.arrays[a.name]?
  | .scalar s => m.scalars[s.name]? = m'.scalars[s.name]?

theorem AlikeSince.sameParameter {n n' : Machine R} (h : AlikeSince m m' n n') {p : Parameter}
    (hp : m.SameParameter m' p) : n.SameParameter n' p := by
  cases p with
  | array a => exact h.arrays a.name hp
  | scalar s => exact h.scalars s.name hp

/-- Two machines bind alike some parameters, and all sizes and indices. -/
structure AgreeOn (ps : List Parameter) (m m' : Machine R) : Prop where
  parameters : ∀ p ∈ ps, m.SameParameter m' p
  sizes (name : String) : m.sizes[name]? = m'.sizes[name]?
  indices (name : String) : m.indices[name]? = m'.indices[name]?

variable {ps : List Parameter}

theorem AgreeOn.sameAt (h : AgreeOn ps m m') {e : Expr} (he : e.CoveredBy ps) : m.SameAt m' e := by
  cases e with
  | access a es =>
    obtain ⟨p, hp, harray, hname⟩ := he
    cases p with
    | array b =>
      have hb : b.name = a.name := hname
      simpa only [SameParameter, SameAt, hb] using h.parameters _ hp
    | scalar t => cases harray
  | scalar s =>
    obtain ⟨p, hp, hscalar, hname⟩ := he
    cases p with
    | array b => cases hscalar
    | scalar t =>
      have ht : t.name = s.name := hname
      simpa only [SameParameter, SameAt, ht] using h.parameters _ hp
  | dim d => exact h.indices d.name
  | size name => exact h.sizes name
  | _ => trivial

theorem AgreeOn.mono {qs : List Parameter} (h : AgreeOn qs m m') (hps : ps ⊆ qs) :
    AgreeOn ps m m' := ⟨fun p hp => h.parameters p (hps hp), h.sizes, h.indices⟩

theorem AgreeOn.bindScalar (h : AgreeOn ps m m') (s : Scalar) (x : R) :
    AgreeOn (ps ++ [.scalar s]) (m.bindScalar s.name x) (m'.bindScalar s.name x) := by
  refine ⟨fun p hp => ?_, h.sizes, h.indices⟩
  rcases List.mem_append.1 hp with hp | hp
  · exact ((AlikeSince.refl m m').bindScalar s.name x).sameParameter (h.parameters p hp)
  · obtain rfl := List.mem_singleton.1 hp
    simp [SameParameter]

end Parameters

namespace AgreeOn

variable {ps : List Parameter}

/-- Machines agree on the scalars that both have declared. -/
theorem declares (h : AgreeOn ps m m') (ss : List Scalar) :
    (runAll (ss.map .declare) m).Alike (AgreeOn (ps ++ ss.map .scalar))
      (runAll (ss.map .declare) m') := by
  induction ss generalizing ps m m' with
  | nil => simpa [runAll, Outcome.alike_done] using h
  | cons s ss ih => simpa [runAll, run] using ih (h.bindScalar s Arithmetic.zero)

/-- Machines that agree on what covers a statement and the extents that it checks run it alike. -/
theorem run {s : Stmt} (h : AgreeOn ps m m')
    (hexprs : ∀ x ∈ s.nodes, ∀ e ∈ x.exprs, ∀ n ∈ e.nodes, n.CoveredBy ps)
    (hviews : ∀ a, .view a ∈ s.nodes → .array a ∈ ps ∧
      ∀ axis e, a.allocated axis = .ok e → ∀ n ∈ e.nodes, n.CoveredBy ps) :
    (Machine.run s m).Alike (AgreeOn ps) (Machine.run s m') := by
  obtain ⟨hfault, hsince⟩ := run_alike (s := s)
    (fun x hx e he n hn => h.sameAt (hexprs x hx e he n hn)) fun a ha =>
      ⟨h.parameters _ (hviews a ha).1, fun axis e he n hn =>
        h.sameAt ((hviews a ha).2 axis e he n hn)⟩
  exact ⟨hfault, fun p hp => hsince.sameParameter (h.parameters p hp),
    fun name => hsince.sizes name (h.sizes name), fun name => hsince.indices name (h.indices name)⟩

end AgreeOn
end Machine
end GridKernel
