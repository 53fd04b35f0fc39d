import GridKernel.Proofs.Agreement
import GridKernel.Proofs.Footprints

/-! Reordered runs. Statements that read none of the cells that others write may run in any order:
they stop early in all orders or in none, and at the end the orders differ in cells only that two of
the statements write. -/
namespace GridKernel

/-- An expression mentions no index but some, and accesses no array that is written. -/
def Expr.ReadsOutside (written index : String → Prop) (e : Expr) : Prop :=
  ∀ x ∈ e.nodes, match x with
    | .dim d => index d.name
    | .access a _ => ¬ written a.name
    | _ => True

/-- An expression mentions no index, and accesses no array that is written. -/
def Expr.Unmoved (written : String → Prop) (e : Expr) : Prop :=
  e.ReadsOutside written fun _ => False

namespace Machine

variable {R : Type} {written : String → Prop} {same : String → List Int64 → Prop}

section Reads

variable [Arithmetic R] {m m' : Machine R} {index : String → Prop} {e : Expr}

omit [Arithmetic R] in
theorem Resembles.sameAt (h : m.Resembles written same m') (he : e.ReadsOutside written index)
    (hindex : ∀ name : String, index name → m.indices[name]? = m'.indices[name]?) {x : Expr}
    (hx : x ∈ e.nodes) : m.SameAt m' x := by
  have hread := he x hx
  cases x with
  | scalar s => simp only [SameAt, h.scalars]
  | size name => simp only [SameAt, h.sizes]
  | dim d => exact hindex d.name hread
  | access a es => exact (h.arrays a.name hread).symm
  | _ => trivial

theorem Resembles.eval (h : m.Resembles written same m') (he : e.ReadsOutside written index)
    (hindex : ∀ name : String, index name → m.indices[name]? = m'.indices[name]?) :
    m.eval e = m'.eval e :=
  eval_congr e fun _ hx => h.sameAt he hindex hx

theorem Resembles.evalIndex (h : m.Resembles written same m') (he : e.ReadsOutside written index)
    (hindex : ∀ name : String, index name → m.indices[name]? = m'.indices[name]?) :
    m.evalIndex e = m'.evalIndex e := by
  rw [Machine.evalIndex, Machine.evalIndex, h.eval he hindex]

theorem Resembles.evalIndices (h : m.Resembles written same m') {es : List Expr}
    (hes : ∀ e ∈ es, e.ReadsOutside written index)
    (hindex : ∀ name : String, index name → m.indices[name]? = m'.indices[name]?) :
    m.evalIndices es = m'.evalIndices es := by
  refine evalIndices_congr es fun x hx => ?_
  obtain ⟨e, he, hx⟩ := Expr.mem_nodesAll.1 hx
  exact h.sameAt (hes e he) hindex hx

/-- A store to an array that may be written, where both machines find one place and one value. -/
theorem Resembles.store (h : m.Resembles written same m') {a : GridArray} {es : List Expr}
    (hname : written a.name) (hes : m.evalIndices es = m'.evalIndices es) (value : R) :
    (Outcome.attempt m (m.store (.access a es) value) .done).Alike (Resembles written same)
      (Outcome.attempt m' (m'.store (.access a es) value) .done) := by
  have htwins := h.twins a.name
  simp only [Machine.store, hes, array]
  cases m'.evalIndices es with
  | error e => exact ⟨rfl, h⟩
  | ok is =>
    cases hb : m.arrays[a.name]? with
    | none =>
      cases hb' : m'.arrays[a.name]? with
      | none => exact ⟨rfl, h⟩
      | some b' =>
        rw [hb, hb'] at htwins
        cases htwins
    | some b =>
      cases hb' : m'.arrays[a.name]? with
      | none =>
        rw [hb, hb'] at htwins
        cases htwins
      | some b' =>
        rw [hb, hb'] at htwins
        cases htwins with
        | some htwins =>
          have hoffset := Buffer.offset?_congr htwins.dims is
          have hcause : outside a.name b' is = outside a.name b is := by
            rw [outside, outside, htwins.dims]
          simp only [ok_bind, bound, hcause]
          cases hset : b.set? is value with
          | none =>
            have hset' : b'.set? is value = none := by
              simp only [Buffer.set?, Option.map_eq_none_iff] at hset ⊢
              rw [hoffset, hset]
            rw [hset']
            exact ⟨rfl, h⟩
          | some c =>
            obtain ⟨k, hk, -⟩ := Option.map_eq_some_iff.1 hset
            have hset' : b'.set? is value =
                some { b' with cells := b'.cells.setIfInBounds k value } := by
              rw [Buffer.set?, hoffset, hk]
              rfl
            rw [hset']
            exact ⟨rfl, h.set hb hb' hset hset' hname⟩

end Reads

/-- An outcome that runs to the end when another does, with the same cells then. -/
def Matches (written : String → Prop) (same : String → List Int64 → Prop) (o o' : Outcome R) :
    Prop :=
  (o.fault? = none ↔ o'.fault? = none) ∧
    (o.fault? = none → o.machine.Resembles written same o'.machine)

theorem Matches.refl (o : Outcome R) : Matches written same o o :=
  ⟨Iff.rfl, fun _ => .refl _ _ _⟩

theorem Matches.trans {o o' o'' : Outcome R} (h : Matches written same o o')
    (h' : Matches written same o' o'') : Matches written same o o'' :=
  ⟨h.1.trans h'.1, fun ho => (h.2 ho).trans (h'.2 (h.1.1 ho))⟩

/-- Matching runs that go on alike from their ends match. -/
theorem Matches.andThen {o o' : Outcome R} {f f' : Machine R → Outcome R}
    (h : Matches written same o o') (hf : o.machine.Resembles written same o'.machine →
      Matches written same (f o.machine) (f' o'.machine)) :
    Matches written same (o.andThen f) (o'.andThen f') := by
  obtain ⟨hfault, hends⟩ := h
  constructor
  · rw [Outcome.andThen_fault?, Outcome.andThen_fault?, ← hfault]
    exact and_congr_right fun hnone => (hf (hends hnone)).1
  · intro hboth
    obtain ⟨hnone, hnext⟩ := Outcome.andThen_fault?.1 hboth
    rw [Outcome.andThen_of_none hnone, Outcome.andThen_of_none (hfault.1 hnone)]
    exact (hf (hends hnone)).2 hnext

theorem matches_of_alike {o o' : Outcome R} (h : o.Alike (Resembles written same) o') :
    Matches written same o o' :=
  ⟨by rw [h.1], fun _ => h.2⟩

section Steps

variable {V : Machine R → Prop} {m m' : Machine R} {f g : Machine R → Outcome R}

/-- Machines with a property that resemble each other go on alike from a step. -/
def GoesAlike (V : Machine R → Prop) (written : String → Prop) (same : String → List Int64 → Prop)
    (f : Machine R → Outcome R) : Prop :=
  ∀ m m', V m → V m' → m.Resembles written same m' →
    (f m).Alike (Resembles written same) (f m')

/-- A step keeps a property and changes only the given cells of written arrays. -/
structure Touches (V : Machine R → Prop) (written : String → Prop)
    (touched : String → List Int64 → Prop) (f : Machine R → Outcome R) : Prop where
  keeps (m : Machine R) (hm : V m) : V (f m).machine
  changes (m : Machine R) (hm : V m) :
    m.Resembles written (fun name is => ¬ touched name is) (f m).machine

/-- Neither of two steps sees what the other one changes, and they change different cells, but for
those that do not have to be the same. -/
def Independent (V : Machine R → Prop) (written : String → Prop)
    (same : String → List Int64 → Prop) (f g : Machine R → Outcome R) : Prop :=
  ∃ touched touched', Touches V written touched f ∧ Touches V written touched' g ∧
    GoesAlike V written (fun name is => ¬ touched' name is) f ∧
    GoesAlike V written (fun name is => ¬ touched name is) g ∧
    ∀ name is, same name is → ¬ touched name is ∨ ¬ touched' name is

theorem Independent.symm (h : Independent V written same f g) :
    Independent V written same g f := by
  obtain ⟨touched, touched', hf, hg, hseenF, hseenG, hapart⟩ := h
  exact ⟨touched', touched, hg, hf, hseenG, hseenF, fun name is his => (hapart name is his).symm⟩

/-- Independent steps may be swapped. -/
theorem Independent.swap (h : Independent V written same f g) (hm : V m) :
    Matches written same ((f m).andThen g) ((g m).andThen f) := by
  obtain ⟨touched, touched', hf, hg, hseenF, hseenG, hapart⟩ := h
  have hafterF := hf.changes m hm
  have hafterG := hg.changes m hm
  have hkeptF := hf.keeps m hm
  have hkeptG := hg.keeps m hm
  -- each step goes on alike before and after the other
  obtain ⟨hfaultG, hG⟩ := hseenG _ _ hm hkeptF hafterF
  obtain ⟨hfaultF, hF⟩ := hseenF _ _ hm hkeptG hafterG
  have hafterFG := hg.changes _ hkeptF
  have hafterGF := hf.changes _ hkeptG
  have hends : (g (f m).machine).machine.Resembles written same (f (g m).machine).machine :=
    (hG.symm.trans hafterGF).join (hafterFG.symm.trans hF) hapart
  constructor
  · rw [Outcome.andThen_fault?, Outcome.andThen_fault?, ← hfaultF, ← hfaultG, and_comm]
  · intro hnone
    obtain ⟨hf?, hg?⟩ := Outcome.andThen_fault?.1 hnone
    rw [Outcome.andThen_of_none hf?, Outcome.andThen_of_none (hfaultG.trans hg?)]
    exact hends

variable {α : Type} {step : α → Machine R → Outcome R}

theorem sequence_keeps {xs : List α} (hkeeps : ∀ x ∈ xs, ∀ m, V m → V (step x m).machine)
    (hm : V m) : V (Outcome.sequence step xs m).machine := by
  induction xs generalizing m with
  | nil => exact hm
  | cons x xs ih =>
    refine Outcome.andThen_machine (hkeeps x (by simp) m hm) fun m' hm' => ?_
    exact ih (fun y hy => hkeeps y (by simp [hy])) hm'

theorem sequence_goesAlike {xs : List α} (hkeeps : ∀ x ∈ xs, ∀ m, V m → V (step x m).machine)
    (halike : ∀ x ∈ xs, GoesAlike V written same (step x)) :
    GoesAlike V written same (Outcome.sequence step xs) := by
  induction xs with
  | nil => exact fun m m' _ _ h => Outcome.alike_done.2 h
  | cons x xs ih =>
    intro m m' hm hm' h
    have hkept := hkeeps x (by simp) m hm
    have hkept' := hkeeps x (by simp) m' hm'
    obtain ⟨hfault, hends⟩ := halike x (by simp) m m' hm hm' h
    have hrest := ih (fun y hy => hkeeps y (by simp [hy])) (fun y hy => halike y (by simp [hy])) _ _
      hkept hkept' hends
    simp only [Outcome.sequence, Outcome.andThen, ← hfault]
    split
    · exact hrest
    · exact ⟨hfault, hends⟩

/-- Pairwise independent steps may be taken in any order. -/
theorem sequence_matches {xs ys : List α} (h : xs.Perm ys)
    (hkeeps : ∀ x ∈ xs, ∀ m, V m → V (step x m).machine)
    (halike : ∀ x ∈ xs, GoesAlike V written same (step x))
    (hpairs : xs.Pairwise fun x y => Independent V written same (step x) (step y)) (hm : V m) :
    Matches written same (Outcome.sequence step xs m) (Outcome.sequence step ys m) := by
  induction h generalizing m with
  | nil => exact .refl _
  | @cons x xs ys _ ih =>
    refine Matches.andThen (.refl _) fun _ => ?_
    exact ih (fun y hy => hkeeps y (by simp [hy])) (fun y hy => halike y (by simp [hy]))
      (List.pairwise_cons.1 hpairs).2 (hkeeps x (by simp) m hm)
  | swap x y xs =>
    obtain ⟨hfirst, -⟩ := List.pairwise_cons.1 hpairs
    have hkeepX := hkeeps x (by simp)
    have hkeepY := hkeeps y (by simp)
    have hpair : ∀ v w, Outcome.sequence step (v :: w :: xs) m =
        ((step v m).andThen (step w)).andThen (Outcome.sequence step xs) :=
      fun v w => (Outcome.andThen_assoc ..).symm
    have hrest : GoesAlike V written same (Outcome.sequence step xs) :=
      sequence_goesAlike (fun z hz => hkeeps z (by simp [hz])) fun z hz => halike z (by simp [hz])
    rw [hpair, hpair]
    refine ((hfirst x (by simp)).swap hm).andThen fun hsame => matches_of_alike ?_
    refine hrest _ _ ?_ ?_ hsame
    · exact Outcome.andThen_machine (hkeepY m hm) hkeepX
    · exact Outcome.andThen_machine (hkeepX m hm) hkeepY
  | @trans xs zs ys hfirst _ ih ih' =>
    have hback : ∀ z ∈ zs, z ∈ xs := fun z hz => hfirst.mem_iff.2 hz
    refine (ih hkeeps halike hpairs hm).trans (ih' (fun z hz => hkeeps z (hback z hz))
      (fun z hz => halike z (hback z hz)) ?_ hm)
    exact (hfirst.pairwise_iff Independent.symm).1 hpairs

end Steps

variable [Arithmetic R] {m₀ m m' : Machine R} {s t : Stmt}

/-- A statement runs alike in machines that differ in the cells of written arrays only, wherever
they differ. -/
def Blind (R : Type) [Arithmetic R] (written : String → Prop) (s : Stmt) : Prop :=
  ∀ same, ∀ m m' : Machine R, m.Resembles written same m' →
    (run s m).Alike (Resembles written same) (run s m')

/-- The machine `m'` differs from `m` in indices and in the cells of written arrays only. -/
def Varies (written : String → Prop) (m m' : Machine R) : Prop :=
  m.Resembles written (fun _ _ => False) m'

omit [Arithmetic R] in
theorem Resembles.varies (h : m.Resembles written same m') : m.Varies written m' :=
  h.mono (fun _ => id) fun _ _ => False.elim

/-- A statement changes the given cells of written arrays only. -/
structure Confined (m₀ : Machine R) (written : String → Prop)
    (touched : String → List Int64 → Prop) (s : Stmt) : Prop where
  within (name : String) (is : List Int64) (h : touched name is) : written name
  changes (m : Machine R) (h : m₀.Varies written m) : m.ChangesOnly touched (run s m).machine

/-- Two statements change different cells, but for those that do not have to be the same. -/
def Apart (m₀ : Machine R) (written : String → Prop) (same : String → List Int64 → Prop)
    (s t : Stmt) : Prop :=
  ∃ touched touched', Confined m₀ written touched s ∧ Confined m₀ written touched' t ∧
    ∀ name is, same name is → ¬ touched name is ∨ ¬ touched' name is

theorem Confined.touches {touched : String → List Int64 → Prop}
    (h : Confined m₀ written touched s) :
    Touches (m₀.Varies written) written touched (run s) := by
  have hchanges : ∀ m, m₀.Varies written m →
      m.Resembles written (fun name is => ¬ touched name is) (run s m).machine := fun m hm =>
    Resembles.mono (h.changes m hm) (fun name ⟨is, his⟩ => h.within name is his) fun _ _ => id
  exact ⟨fun m hm => hm.trans (hchanges m hm).varies, hchanges⟩

theorem Blind.goesAlike (h : Blind R written s) (V : Machine R → Prop) :
    GoesAlike V written same (run s) := fun m m' _ _ => h same m m'

/-- Two statements apart are independent. -/
theorem Apart.independent (hs : Blind R written s) (ht : Blind R written t)
    (h : Apart m₀ written same s t) :
    Independent (m₀.Varies written) written same (run s) (run t) := by
  obtain ⟨touched, touched', hinS, hinT, hapart⟩ := h
  exact ⟨touched, touched', hinS.touches, hinT.touches, hs.goesAlike _, ht.goesAlike _, hapart⟩

theorem runAll_eq_sequence (ss : List Stmt) (m : Machine R) :
    runAll ss m = Outcome.sequence run ss m := by
  induction ss generalizing m with
  | nil => rfl
  | cons s ss ih => rw [runAll, Outcome.sequence, funext ih]

/-- Statements apart from each other may run in any order. -/
theorem runAll_matches {ss ts : List Stmt} (h : ss.Perm ts) (hblind : ∀ s ∈ ss, Blind R written s)
    (hconfined : ∀ s ∈ ss, ∃ touched, Confined m₀ written touched s)
    (hapart : ss.Pairwise (Apart m₀ written same)) (hm : m₀.Varies written m) :
    Matches written same (runAll ss m) (runAll ts m) := by
  rw [runAll_eq_sequence, runAll_eq_sequence]
  refine sequence_matches h (V := m₀.Varies written) (fun s hs => ?_)
    (fun s hs => (hblind s hs).goesAlike _) ?_ hm
  · obtain ⟨touched, hs⟩ := hconfined s hs
    exact hs.touches.keeps
  · exact hapart.imp_of_mem fun hs ht h => h.independent (hblind _ hs) (hblind _ ht)

end Machine
end GridKernel
