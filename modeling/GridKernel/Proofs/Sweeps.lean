import GridKernel.Proofs.Agreement
import GridKernel.Proofs.MarchRuns

/-! Sweeps. The space loops of a march run the statements of a grid point at every point, and only
the counters of the space loops tell their runs from a sweep over the points in the same order. -/
namespace GridKernel

variable {R : Type}

namespace Outcome

variable {S S' : Machine R → Machine R → Prop} {o o' o'' : Outcome R}

/-- An outcome that runs to the end wherever another does, with related machines then. -/
def Follows (S : Machine R → Machine R → Prop) (o o' : Outcome R) : Prop :=
  o.fault? = none → o'.fault? = none ∧ S o.machine o'.machine

theorem Alike.follows (h : o.Alike S o') : o.Follows S o' := fun ho => ⟨h.1 ▸ ho, h.2⟩

theorem Follows.trans (hS : ∀ {m m' m''}, S m m' → S m' m'' → S m m'') (h : o.Follows S o')
    (h' : o'.Follows S o'') : o.Follows S o'' := fun ho =>
  ⟨(h' (h ho).1).1, hS (h ho).2 (h' (h ho).1).2⟩

theorem Follows.andThen {f f' : Machine R → Outcome R} (h : o.Follows S o')
    (hf : ∀ m m', S m m' → (f m).Follows S' (f' m')) :
    (o.andThen f).Follows S' (o'.andThen f') := by
  intro hboth
  obtain ⟨ho, hrest⟩ := andThen_fault?.1 hboth
  obtain ⟨ho', hends⟩ := h ho
  rw [andThen_of_none ho, andThen_of_none ho']
  exact hf _ _ hends hrest

theorem sequence_follows {α : Type} {step step' : α → Machine R → Outcome R} {xs : List α}
    (hstep : ∀ x ∈ xs, ∀ m m', S m m' → (step x m).Follows S (step' x m')) {m m' : Machine R}
    (h : S m m') : (sequence step xs m).Follows S (sequence step' xs m') := by
  induction xs generalizing m m' with
  | nil => exact fun _ => ⟨rfl, h⟩
  | cons x xs ih =>
    refine (hstep x (by simp) m m' h).andThen fun n n' hn => ?_
    exact ih (fun y hy => hstep y (by simp [hy])) hn

theorem sequence_append {α : Type} (step : α → Machine R → Outcome R) (xs ys : List α)
    (m : Machine R) :
    sequence step (xs ++ ys) m = (sequence step xs m).andThen (sequence step ys) := by
  induction xs generalizing m with
  | nil => rfl
  | cons x xs ih =>
    rw [List.cons_append, sequence, sequence, andThen_assoc]
    congr 1
    funext m'
    exact ih m'

end Outcome

namespace Machine

variable {free : String → Prop} {M M' M'' : Machine R} {bs : Bindings}

/-- Two machines bind the same, but for the indices of some names. -/
structure SameOff (free : String → Prop) (M M' : Machine R) : Prop where
  arrays (name : String) : M.arrays[name]? = M'.arrays[name]?
  scalars (name : String) : M.scalars[name]? = M'.scalars[name]?
  sizes (name : String) : M.sizes[name]? = M'.sizes[name]?
  indices (name : String) (h : ¬ free name) : M.indices[name]? = M'.indices[name]?

@[simp] theorem arrays_bindAll (M : Machine R) (bs : Bindings) :
    (M.bindAll bs).arrays = M.arrays := by
  induction bs generalizing M with
  | nil => rfl
  | cons b bs ih => exact ih _

@[simp] theorem scalars_bindAll (M : Machine R) (bs : Bindings) :
    (M.bindAll bs).scalars = M.scalars := by
  induction bs generalizing M with
  | nil => rfl
  | cons b bs ih => exact ih _

@[simp] theorem sizes_bindAll (M : Machine R) (bs : Bindings) :
    (M.bindAll bs).sizes = M.sizes := by
  induction bs generalizing M with
  | nil => rfl
  | cons b bs ih => exact ih _

namespace SameOff

theorem refl (free : String → Prop) (M : Machine R) : SameOff free M M :=
  ⟨fun _ => rfl, fun _ => rfl, fun _ => rfl, fun _ _ => rfl⟩

theorem symm (h : SameOff free M M') : SameOff free M' M :=
  ⟨fun name => (h.arrays name).symm, fun name => (h.scalars name).symm,
    fun name => (h.sizes name).symm, fun name hname => (h.indices name hname).symm⟩

theorem trans (h : SameOff free M M') (h' : SameOff free M' M'') : SameOff free M M'' :=
  ⟨fun name => (h.arrays name).trans (h'.arrays name),
    fun name => (h.scalars name).trans (h'.scalars name),
    fun name => (h.sizes name).trans (h'.sizes name),
    fun name hname => (h.indices name hname).trans (h'.indices name hname)⟩

theorem mono {free' : String → Prop} (h : SameOff free M M')
    (hfree : ∀ name, free name → free' name) : SameOff free' M M' :=
  ⟨h.arrays, h.scalars, h.sizes, fun name hname => h.indices name fun hn => hname (hfree name hn)⟩

theorem bindIndex (h : SameOff free M M') (name : String) (i : Int64) :
    SameOff free (M.bindIndex name i) (M'.bindIndex name i) := by
  refine ⟨h.arrays, h.scalars, h.sizes, fun key hkey => ?_⟩
  simp [h.indices key hkey]

/-- Free names may be bound on one side. -/
theorem bindAll_right (h : SameOff free M M') (hbs : ∀ b ∈ bs, free b.1) :
    SameOff free M (M'.bindAll bs) := by
  refine ⟨?_, ?_, ?_, fun name hname => ?_⟩
  · simpa using h.arrays
  · simpa using h.scalars
  · simpa using h.sizes
  · rw [indices_bindAll_of_notMem]
    · exact h.indices name hname
    · intro hmem
      obtain ⟨b, hb, rfl⟩ := List.mem_map.1 hmem
      exact hname (hbs b hb)

variable [Arithmetic R]

/-- A statement that mentions no free name runs alike. -/
theorem run {s : Stmt} (h : SameOff free M M')
    (hexprs : ∀ x ∈ s.nodes, ∀ e ∈ x.exprs, ∀ d, .dim d ∈ e.nodes → ¬ free d.name)
    (hviews : ∀ a, .view a ∈ s.nodes → ∀ axis e, a.allocated axis = .ok e → ∀ d,
      .dim d ∈ e.nodes → ¬ free d.name) :
    (Machine.run s M).Alike (SameOff free) (Machine.run s M') := by
  have hsame : ∀ {e : Expr}, (∀ d, .dim d ∈ e.nodes → ¬ free d.name) →
      ∀ n ∈ e.nodes, M.SameAt M' n := by
    intro e he n hn
    cases n with
    | scalar s => exact h.scalars s.name
    | dim d => exact h.indices d.name (he d hn)
    | size name => exact h.sizes name
    | access a es => exact h.arrays a.name
    | _ => trivial
  obtain ⟨hfault, hsince⟩ := run_alike (s := s) (fun x hx e he => hsame (hexprs x hx e he))
    fun a ha => ⟨h.arrays a.name, fun axis e he => hsame (hviews a ha axis e he)⟩
  exact ⟨hfault, fun name => hsince.arrays name (h.arrays name),
    fun name => hsince.scalars name (h.scalars name),
    fun name => hsince.sizes name (h.sizes name),
    fun name hname => hsince.indices name (h.indices name hname)⟩

/-- Machines that bind the same run every statement alike. -/
theorem run_all (h : SameOff (fun _ => False) M M') (s : Stmt) :
    (Machine.run s M).Alike (SameOff fun _ => False) (Machine.run s M') :=
  h.run (fun _ _ _ _ _ _ => id) fun _ _ _ _ _ _ _ => id

end SameOff
end Machine

namespace March

open Machine

variable {m : March} {specs : Specs} {p : List Int64} {point : Stmt} {M N N' : Machine R}

/-- The names of the counters of the space loops. -/
def Counting (m : March) (name : String) : Prop := ∃ d ∈ m.spaceCounters, d.name = name

/-- The machine with the counters of the space loops at a grid point. -/
def atPoint (m : March) (M : Machine R) (p : List Int64) : Machine R :=
  M.bindAll (pointBindings m.spaceCounters p).flatten

theorem names_pointBindings (ds : List Dimension) (p : List Int64) :
    (pointBindings ds p).flatten.map Prod.fst = (ds.map Dimension.name).take p.length := by
  induction ds generalizing p with
  | nil => simp [pointBindings]
  | cons d ds ih =>
    cases p with
    | nil => rfl
    | cons i p => simpa [pointBindings] using ih p

theorem counting_of_mem {b : String × Int64} (hb : b ∈ (pointBindings m.spaceCounters p).flatten) :
    m.Counting b.1 := by
  have hname := List.mem_map_of_mem (f := Prod.fst) hb
  rw [names_pointBindings] at hname
  exact List.mem_map.1 (List.mem_of_mem_take hname)

theorem indices_atPoint {name : String} (hname : ¬ m.Counting name) (M : Machine R)
    (p : List Int64) : (m.atPoint M p).indices[name]? = M.indices[name]? := by
  apply indices_bindAll_of_notMem
  intro hmem
  obtain ⟨b, hb, rfl⟩ := List.mem_map.1 hmem
  exact hname (counting_of_mem hb)

theorem at_atPoint (hm : Configured specs m) (hlength : m.spaceCounters.length = p.length)
    (M : Machine R) : At (m.atPoint M p) m.spaceCounters p := by
  apply at_of_binds hlength
  apply binds_bindAll
  rw [names_pointBindings, hm.spaceCounters]
  exact (nodup_counters _).sublist (List.take_sublist ..)

theorem length_of_mem_points (hm : Configured specs m)
    (hgrid : ∀ extent ∈ specs.shape, extent.toNat < 2 ^ 53) (hp : p ∈ specs.points) :
    m.spaceCounters.length = p.length := by
  rw [((Specs.mem_points hgrid).1 hp).length_eq, hm.spaceCounters]
  simp [gridCounters]

theorem At.same {ds : List Dimension} (h : At M ds p) (h' : At N ds p) {d : Dimension}
    (hd : d ∈ ds) : M.indices[d.name]? = N.indices[d.name]? := by
  induction h with
  | nil => cases hd
  | cons hi _ ih =>
    cases h' with
    | cons hi' h' =>
      rcases List.mem_cons.1 hd with rfl | hd
      · rw [hi, hi']
      · exact ih h' hd

/-- At one grid point the counters of the space loops are the same. -/
theorem At.sameOff (h : SameOff m.Counting M N) (hM : At M m.spaceCounters p)
    (hN : At N m.spaceCounters p) : SameOff (fun _ => False) M N := by
  refine ⟨h.arrays, h.scalars, h.sizes, fun name _ => ?_⟩
  by_cases hname : m.Counting name
  · obtain ⟨d, hd, rfl⟩ := hname
    exact hM.same hN hd
  · exact h.indices name hname

theorem SameOff.atPoint (h : SameOff m.Counting M N) (p : List Int64) :
    SameOff m.Counting M (m.atPoint N p) := h.bindAll_right fun _ => counting_of_mem

variable [Arithmetic R]

/-- The statements of a grid point, run at some grid points in order. -/
def sweep (m : March) (point : Stmt) (order : List (List Int64)) (M : Machine R) : Outcome R :=
  Outcome.sequence (fun p M => run point (m.atPoint M p)) order M

/-- The start of a step: the time bound and the slots advanced. -/
def enter (m : March) (T : Int) (M : Machine R) : Outcome R :=
  runAll m.advanceSlots (M.bindIndex m.timeCounter.name (Int64.ofInt T))

/-- A march that visits the grid points of every step in the order given for its time. -/
def sweeps (m : March) (point : Stmt) (orders : Int → List (List Int64)) (M : Machine R) :
    Outcome R :=
  (runAll (m.slotScalars.map .declare) M).andThen
    (Outcome.sequence (fun T M => (m.enter T M).andThen (m.sweep point (orders T))) m.times)

/-- Sweeps over the same points end alike but for the counters. -/
theorem sweep_follows (hm : Configured specs m) {order : List (List Int64)}
    (horder : ∀ p ∈ order, m.spaceCounters.length = p.length) (h : SameOff m.Counting N N') :
    (m.sweep point order N).Follows (SameOff m.Counting) (m.sweep point order N') := by
  refine Outcome.sequence_follows (fun p hp N N' h => ?_) h
  have hboth : SameOff m.Counting (m.atPoint N p) (m.atPoint N' p) :=
    SameOff.atPoint (SameOff.atPoint h.symm p).symm p
  have hlength := horder p hp
  have hrun := ((at_atPoint hm hlength N).sameOff hboth (at_atPoint hm hlength N')).run_all point
  exact fun hnone => ⟨hrun.1 ▸ hnone, hrun.2.mono fun _ => False.elim⟩

omit [Arithmetic R] in
/-- The only index that advancing the slots reads is the time. -/
theorem dim_of_advanceSlots {s : Stmt} (hs : s ∈ m.advanceSlots) {e : Expr} (he : e ∈ s.exprs)
    {d : Dimension} (hd : .dim d ∈ e.nodes) : d = m.timeCounter := by
  obtain ⟨-, n, hn, rfl⟩ := mem_advanceSlots_iff.1 hs
  have hdims : ∀ x ∈ e.nodes, ∀ c, x = .dim c → c = m.timeCounter :=
    nodes_advanceSlot (by simp [eq_comm]) (by simp) (by simp) (by simp) hn he
  exact hdims _ hd d rfl

theorem enter_alike (hm : Configured specs m) (T : Int) (h : SameOff m.Counting N N') :
    (m.enter T N).Alike (SameOff m.Counting) (m.enter T N') := by
  have hbound := h.bindIndex m.timeCounter.name (Int64.ofInt T)
  have htime : ¬ m.Counting m.timeCounter.name := by
    rintro ⟨d, hd, hname⟩
    exact timeCounter_ne hm hd hname
  have hnodes : ∀ x ∈ (Stmt.block m.advanceSlots).nodes,
      x = .block m.advanceSlots ∨ x ∈ m.advanceSlots := by
    intro x hx
    refine (List.mem_cons.1 hx).imp_right fun hx => ?_
    obtain ⟨s, hs, hx⟩ := Stmt.mem_nodesAll.1 hx
    rw [(frame_advanceSlots hs).2, List.mem_singleton] at hx
    exact hx ▸ hs
  refine hbound.run (s := .block m.advanceSlots) (fun x hx e he d hd => ?_) fun a ha => ?_
  · rcases hnodes x hx with rfl | hx
    · cases he
    · rw [dim_of_advanceSlots hx he hd]
      exact htime
  · rcases hnodes _ ha with heq | ha
    · cases heq
    · obtain ⟨hframe, -⟩ := frame_advanceSlots ha
      cases hframe

variable [ExactIntegers R]

/-- A run of the space loops ends as a sweep does. -/
theorem nest_follows (hm : Configured specs m)
    (hgrid : ∀ extent ∈ specs.shape, extent.toNat < 2 ^ 53) (hloops : point.loops = [])
    (h : SameOff m.Counting M N) : (run (point.nest m.spaceHeads) M).Follows (SameOff m.Counting)
      (m.sweep point specs.points N) := by
  have hends := ends_points hm hgrid (F := fun _ _ => True)
    (fun before M' => ∃ N', m.sweep point before N = .done N' ∧ SameOff m.Counting M' N') hloops
    ?_ ?_ ⟨N, rfl, h⟩
  · intro hnone
    rw [Outcome.Ends, hnone] at hends
    obtain ⟨N', hsweep, hsame⟩ := hends
    rw [hsweep]
    exact ⟨rfl, hsame⟩
  · rintro before M' d hd i ⟨N', hsweep, hsame⟩
    have hfree : ∀ b ∈ [(d.name, i)], m.Counting b.1 := by simpa using ⟨d, hd, rfl⟩
    exact ⟨N', hsweep, (hsame.symm.bindAll_right hfree).symm⟩
  · rintro before p after hpoints M' ⟨N', hsweep, hsame⟩ hat
    have hlength := length_of_mem_points hm hgrid (p := p) (by simp [hpoints])
    obtain ⟨hfault, hrun⟩ := (hat.sameOff (SameOff.atPoint hsame p)
      (at_atPoint hm hlength N')).run_all point
    cases hnone : (run point M').fault? with
    | some e =>
      rw [Outcome.Ends, hnone]
      trivial
    | none =>
      rw [Outcome.Ends, hnone]
      refine ⟨(run point (m.atPoint N' p)).machine, ?_, hrun.mono fun _ => False.elim⟩
      rw [sweep] at hsweep ⊢
      rw [Outcome.sequence_append, hsweep, Outcome.done_andThen, Outcome.sequence]
      rw [Outcome.andThen_of_none (hfault ▸ hnone)]
      rfl

/-- A run of the loop nest ends as a march does that visits the grid points in the order of the
space loops. -/
theorem loopNest_follows (hm : Configured specs m) (hexact : m.steps.toNat + m.order.toNat < 2 ^ 53)
    (hgrid : ∀ extent ∈ specs.shape, extent.toNat < 2 ^ 53) {body : Stmt}
    (hbody : m.loopNest point = .ok body) (hloops : point.loops = []) (M : Machine R) :
    (run body M).Follows (SameOff m.Counting) (m.sweeps point (fun _ => specs.points) M) := by
  rw [run_loopNest hexact hbody, sweeps]
  obtain ⟨M', hrun, -⟩ := run_declares m.slotScalars M
  rw [hrun, Outcome.done_andThen, Outcome.done_andThen]
  refine Outcome.sequence_follows (fun T _ M N h => ?_) (.refl _ M')
  exact (enter_alike hm T h).follows.andThen fun M N h => nest_follows hm hgrid hloops h

end March
end GridKernel
