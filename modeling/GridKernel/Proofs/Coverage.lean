import GridKernel.Proofs.Binary64Closeness
import GridKernel.Proofs.MarchRuns
import GridKernel.Proofs.PointStatements

/-! Coverage. The loop nest of a march runs the statements of a grid point once for every time of
the march and every grid point at least a border away from the ends. Between these runs it changes
loop counters and slots only. -/
namespace GridKernel.March

open Machine

variable {m : March} {specs : Specs}

/-- A time of a march and a grid point. -/
abbrev Visit := Int × List Int64

def Specs.visitsAt (specs : Specs) (T : Int) : List Visit := specs.points.map (T, ·)

/-- What a march visits, in order: every grid point at every time. -/
def visits (m : March) (specs : Specs) : List Visit := m.times.flatMap specs.visitsAt

/-- The order of points in nested loops, the first axis innermost: the last axis on which two points
differ decides. -/
def Precedes : List Int64 → List Int64 → Prop
  | i :: p, j :: q => Precedes p q ∨ p = q ∧ i < j
  | _, _ => False

theorem Precedes.ne {p q : List Int64} (h : Precedes p q) : p ≠ q := by
  rintro rfl
  induction p with
  | nil => exact h
  | cons i p ih =>
    rcases h with h | ⟨-, h⟩
    · exact ih h
    · exact Int64.lt_irrefl h

theorem pairwise_sections {lists : List (List Int64)}
    (h : ∀ is ∈ lists, is.Pairwise (· < ·)) : lists.sections.Pairwise Precedes := by
  induction lists with
  | nil => simp
  | cons is lists ih =>
    have hrest := ih fun js hjs => h js (by simp [hjs])
    rw [List.sections, List.pairwise_flatMap]
    refine ⟨fun p _ => ?_, hrest.imp fun hpq => ?_⟩
    · rw [List.pairwise_map]
      exact (h is (by simp)).imp fun hij => .inr ⟨rfl, hij⟩
    · intro x hx y hy
      obtain ⟨i, -, rfl⟩ := List.mem_map.1 hx
      obtain ⟨j, -, rfl⟩ := List.mem_map.1 hy
      exact .inl hpq

theorem Specs.pairwise_walk {extent : UInt64} (hexact : extent.toNat < 2 ^ 53) :
    (specs.walk extent).Pairwise (· < ·) := by
  rw [walk, List.pairwise_map]
  refine List.pairwise_lt_range.imp_of_mem fun hj hk hjk => ?_
  have hj := List.mem_range.1 hj
  have hk := List.mem_range.1 hk
  rw [Int64.lt_iff_toInt_lt, toInt_ofInt (by omega), toInt_ofInt (by omega)]
  omega

/-- The grid points come in the order of the loops. -/
theorem Specs.pairwise_points (hexact : ∀ extent ∈ specs.shape, extent.toNat < 2 ^ 53) :
    specs.points.Pairwise Precedes := by
  apply pairwise_sections
  intro is his
  obtain ⟨extent, hextent, rfl⟩ := List.mem_map.1 his
  exact Specs.pairwise_walk (hexact extent (List.mem_reverse.1 hextent))

theorem Specs.nodup_points (hexact : ∀ extent ∈ specs.shape, extent.toNat < 2 ^ 53) :
    specs.points.Nodup := (Specs.pairwise_points hexact).imp fun h => h.ne

theorem nodup_times (m : March) : m.times.Nodup := by
  refine List.Nodup.map (fun j k h => ?_) List.nodup_range
  split at h <;> omega

theorem getElem?_times {k : Nat} (hk : k < m.steps.toNat) : m.times[k]? =
    some (if m.forward then (if m.hasRing then (m.order.toNat : Int) else 0) + k
      else (m.steps.toNat : Int) - 1 - k) := by
  simp [times, hk]

/-- Nothing is visited twice. -/
theorem nodup_visits (hexact : ∀ extent ∈ specs.shape, extent.toNat < 2 ^ 53) :
    (m.visits specs).Nodup := by
  rw [visits, List.nodup_flatMap]
  refine ⟨fun T _ => ?_, (nodup_times m).imp fun hne => ?_⟩
  · exact (Specs.nodup_points hexact).map fun p q hpq => (Prod.mk.inj hpq).2
  · intro v hv hv'
    obtain ⟨p, -, rfl⟩ := List.mem_map.1 hv
    obtain ⟨q, -, hq⟩ := List.mem_map.1 hv'
    exact hne (Prod.mk.inj hq).1.symm

variable {R : Type}

/-- The machine `M'` is `M` but for loop counters and slots. -/
structure Bookkeeping (m : March) (M M' : Machine R) : Prop where
  arrays : M'.arrays = M.arrays
  sizes : M'.sizes = M.sizes
  scalars : ∀ name, m.OffSlots name → M'.scalars[name]? = M.scalars[name]?
  indices : ∀ name, (∀ d ∈ m.counters, d.name ≠ name) → M'.indices[name]? = M.indices[name]?

namespace Bookkeeping

theorem refl (m : March) (M : Machine R) : m.Bookkeeping M M :=
  ⟨rfl, rfl, fun _ _ => rfl, fun _ _ => rfl⟩

theorem trans {M M' M'' : Machine R} (h : m.Bookkeeping M M') (h' : m.Bookkeeping M' M'') :
    m.Bookkeeping M M'' where
  arrays := h'.arrays.trans h.arrays
  sizes := h'.sizes.trans h.sizes
  scalars name hname := (h'.scalars name hname).trans (h.scalars name hname)
  indices name hname := (h'.indices name hname).trans (h.indices name hname)

theorem bindIndex {d : Dimension} (hd : d ∈ m.counters) (M : Machine R) (i : Int64) :
    m.Bookkeeping M (M.bindIndex d.name i) where
  arrays := rfl
  sizes := rfl
  scalars _ _ := rfl
  indices name hname := by simp [hname d hd]

end Bookkeeping

theorem Declared.bookkeeping {M M' : Machine R} (h : Declared m.slotScalars M M') :
    m.Bookkeeping M M' where
  arrays := h.arrays
  sizes := h.sizes
  scalars := h.scalars
  indices name _ := by rw [h.indices]

variable [Arithmetic R]

theorem Entered.bookkeeping {T : Int} {M M' : Machine R} (h : m.Entered T M M') :
    m.Bookkeeping M M' where
  arrays := h.arrays
  sizes := h.sizes
  scalars := h.scalars
  indices name hname := by
    have hne := hname m.timeCounter (by simp [counters])
    simp [h.indices, hne]

/-- The machine `M'` is `M` with the loop counters and slots of a visit. -/
structure Arrives (m : March) (T : Int) (p : List Int64) (M M' : Machine R) : Prop extends
    m.Bookkeeping M M' where
  time : M'.indices[m.timeCounter.name]? = some (Int64.ofInt T)
  point : At M' m.spaceCounters p
  slots : m.hasRing → m.Slots T M'

/-- Runs of the statements of a grid point at the given visits, in order, lead from one machine to
another. -/
inductive Covers (m : March) (point : Stmt) : List Visit → Machine R → Machine R → Prop where
  | start (M : Machine R) : Covers m point [] M M
  | visit {before : List Visit} {T : Int} {p : List Int64} {M M₁ M₂ M₃ : Machine R}
    (h : Covers m point before M M₁) (harrives : m.Arrives T p M₁ M₂)
    (hrun : run point M₂ = .done M₃) : Covers m point (before ++ [(T, p)]) M M₃

/-- The statements of a grid point stopped with a fault at one of the visits, after runs at those
before it. -/
def Stops (m : March) (point : Stmt) (visits : List Visit) (M : Machine R) (fault : Fault)
    (M' : Machine R) : Prop :=
  ∃ before T p after M₁ M₂, visits = before ++ (T, p) :: after ∧ Covers m point before M M₁ ∧
    m.Arrives T p M₁ M₂ ∧ run point M₂ = ⟨M', some fault⟩

/-- The visits made so far in a step, and what they leave for the next one. -/
structure Visiting (m : March) (point : Stmt) (M : Machine R) (made : List Visit) (T : Int)
    (M' : Machine R) : Prop where
  covered : ∃ M'', Covers m point made M M'' ∧ m.Bookkeeping M'' M'
  time : M'.indices[m.timeCounter.name]? = some (Int64.ofInt T)
  slots : m.hasRing → m.Slots T M'

section Visiting

variable {point : Stmt} {M M' : Machine R} {made : List Visit} {T : Int}

theorem Visiting.bindIndex (hm : Configured specs m) (h : Visiting m point M made T M')
    {d : Dimension} (hd : d ∈ m.spaceCounters) (i : Int64) :
    Visiting m point M made T (M'.bindIndex d.name i) where
  covered := by
    obtain ⟨M'', hcovers, hkept⟩ := h.covered
    exact ⟨M'', hcovers, hkept.trans (.bindIndex (by simp [counters, hd]) M' i)⟩
  time := by
    have hne := timeCounter_ne hm hd
    simpa [hne] using h.time
  slots := h.slots

/-- The statements of a grid point make one more visit, or stop. -/
theorem Visiting.ends (h : Visiting m point M made T M') {p : List Int64}
    (hat : At M' m.spaceCounters p) (hloops : point.loops = [])
    (hslots : ∀ x ∈ point.nodes, ∀ s ∈ m.slotScalars, setScalar? x ≠ some s.name)
    {visits : List Visit} (hvisits : ∃ after, visits = made ++ (T, p) :: after) :
    (run point M').Ends (Visiting m point M (made ++ [(T, p)]) T) (Stops m point visits M) := by
  obtain ⟨M'', hcovers, hkept⟩ := h.covered
  have harrives : m.Arrives T p M'' M' := ⟨hkept, h.time, hat, h.slots⟩
  have htime : (run point M').machine.indices[m.timeCounter.name]? =
      M'.indices[m.timeCounter.name]? := run_indices (by simp [hloops]) M'
  have hscalars : ∀ s ∈ m.slotScalars,
      (run point M').machine.scalars[s.name]? = M'.scalars[s.name]? :=
    fun s hs => run_scalars (fun x hx => hslots x hx s hs) M'
  rcases hrun : run point M' with ⟨M₃, _ | fault⟩
  · rw [hrun] at htime hscalars
    refine ⟨⟨M₃, hcovers.visit harrives hrun, .refl m M₃⟩, htime.trans h.time, ?_⟩
    intro hring j hj
    obtain ⟨x, hx, hslot⟩ := h.slots hring j hj
    exact ⟨x, (hscalars _ (mem_slotScalars hring hj)).trans hx, hslot⟩
  · obtain ⟨after, hvisits⟩ := hvisits
    exact ⟨made, T, p, after, M'', M', hvisits, hcovers, harrives, hrun⟩

end Visiting

variable [ExactIntegers R]

/-- A loop nest covers the visits of its march. -/
theorem run_covers (hm : Configured specs m) (hexact : m.steps.toNat + m.order.toNat < 2 ^ 53)
    (hgrid : ∀ extent ∈ specs.shape, extent.toNat < 2 ^ 53) {point body : Stmt}
    (hbody : m.loopNest point = .ok body) (hloops : point.loops = [])
    (hslots : ∀ x ∈ point.nodes, ∀ s ∈ m.slotScalars, setScalar? x ≠ some s.name)
    (M : Machine R) :
    (run body M).Ends (fun M' => ∃ M'', Covers m point (m.visits specs) M M'' ∧
      m.Bookkeeping M'' M') (Stops m point (m.visits specs) M) := by
  refine ends_loopNest hm hexact hgrid hbody hloops
    (fun before M' => ∃ M'', Covers m point (before.flatMap specs.visitsAt) M M'' ∧
      m.Bookkeeping M'' M')
    (fun before T visited => Visiting m point M
      (before.flatMap specs.visitsAt ++ visited.map (T, ·)) T) ?_ ?_ ?_ ?_ ?_
  · rintro before T after - M₁ M₂ ⟨M'', hcovers, hkept⟩ hentered
    rw [List.map_nil, List.append_nil]
    exact ⟨⟨M'', hcovers, hkept.trans hentered.bookkeeping⟩, hentered.time, hentered.slots⟩
  · intro before T visited M' d hd i h
    exact h.bindIndex hm hd i
  · intro before T after htimes visited p rest hpoints M' h hat
    rw [List.map_append, List.map_singleton, ← List.append_assoc]
    refine h.ends hat hloops hslots ⟨rest.map (T, ·) ++ after.flatMap specs.visitsAt, ?_⟩
    simp [visits, htimes, Specs.visitsAt, hpoints]
  · intro before T after _ M' h
    rw [List.flatMap_append, List.flatMap_singleton]
    exact h.covered
  · intro M' hdeclared
    exact ⟨M, .start M, hdeclared.bookkeeping⟩

/-- The loop nest covers time and space once: the statements of a grid point are run at every visit
and nowhere else. The times are consecutive, up from the first with all its earlier levels or down
to zero. A visited point is at least a border away from the ends of every axis, the first axis
spanning the last extent; points come with the first axis innermost. A run stops early only where
the statements of a grid point do. -/
theorem build_covers (hm : Registered specs m)
    (hexact : specs.steps.toNat + specs.order.toNat < 2 ^ 53)
    (hgrid : ∀ extent ∈ specs.shape, extent.toNat < 2 ^ 53) {symbols : List String}
    {equations : List Equation} {rows : List (List Expr)} {ss : List Stmt} {body : Stmt}
    (hss : m.pointStmts symbols equations rows = .ok ss)
    (hbody : m.build symbols equations rows = .ok body)
    (hslots : ∀ x ∈ Stmt.nodesAll ss, ∀ s ∈ m.slotScalars, setScalar? x ≠ some s.name) :
    m.times.length = specs.steps.toNat ∧
      (∀ k < specs.steps.toNat, m.times[k]? = some (if specs.forward then
        (if m.hasRing then (specs.order.toNat : Int) else 0) + k else specs.steps.toNat - 1 - k)) ∧
      (∀ p, p ∈ specs.points ↔ List.Forall₂ specs.Inside p specs.shape.reverse) ∧
      specs.points.Pairwise Precedes ∧ (m.visits specs).Nodup ∧
      ∀ M : Machine R, (run body M).Ends
        (fun M' => ∃ M'', Covers m (.block ss) (m.visits specs) M M'' ∧ m.Bookkeeping M'' M')
        (Stops m (.block ss) (m.visits specs) M) := by
  have hconfigured := hm.invariant.1
  rw [← hconfigured.steps, ← hconfigured.order, ← hconfigured.forward] at *
  obtain ⟨-, ss', hss', hnest⟩ := build_eq_ok.1 hbody
  obtain rfl := Except.ok.inj (hss'.symm.trans hss)
  refine ⟨by simp [times], fun k hk => getElem?_times hk, fun p => Specs.mem_points hgrid,
    Specs.pairwise_points hgrid, nodup_visits hgrid, ?_⟩
  refine run_covers hconfigured hexact hgrid hnest (loops_pointStmts hss) fun x hx => ?_
  rcases List.mem_cons.1 hx with rfl | hx
  · rintro s - ⟨⟩
  · exact hslots x hx

/-- A march with a ring and a test covers a line of four cells. -/
theorem build_covers_line : ∃ m ss body, Registered ringSpecs m ∧ ss ≠ [] ∧
    m.pointStmts [] [] [] = .ok ss ∧ m.build [] [] [] = .ok body ∧
    ∀ M : Machine Binary64, (run body M).Ends
      (fun M' => ∃ M'', Covers m (.block ss) (m.visits ringSpecs) M M'' ∧ m.Bookkeeping M'' M')
      (Stops m (.block ss) (m.visits ringSpecs) M) := by
  have hm : Registered ringSpecs _ := .guarded ringTest true
    (.array (.start rfl) (rfl : addArray _ "v" [2, 4] .float64 false = .ok _))
  obtain ⟨-, -, -, -, -, hcovers⟩ := build_covers (R := Binary64) hm (by decide)
    (by simp [ringSpecs]) (rfl : pointStmts _ [] [] [] = .ok _) rfl (by decide)
  exact ⟨_, _, _, hm, by simp, rfl, rfl, hcovers⟩

end GridKernel.March
