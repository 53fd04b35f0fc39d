import GridKernel.Proofs.Cells
import GridKernel.Proofs.Loops

/-! Footprints of runs. The cells that a run may change are given by a predicate on array names and
multi-indices; all else is as before, wherever the run stops. In a nest of loops that count up from
zero, the statement inside sees indices within the bounds. -/
namespace GridKernel

variable {R : Type}

namespace Buffer

variable {b c d : Buffer R} {is js : List Int64} {value : R}

theorem offset?_congr (h : c.dims = b.dims) (is : List Int64) : c.offset? is = b.offset? is := by
  rw [offset?, offset?, h]

/-- A store leaves all cells alone but the one that it names. -/
theorem get?_set?_of_ne (h : b.set? is value = some c) (hne : js ≠ is) :
    c.get? js = b.get? js := by
  have hoffset := offset?_congr (dims_of_set? h) js
  obtain ⟨k, hk, rfl⟩ := Option.map_eq_some_iff.1 h
  unfold Buffer.get?
  rw [hoffset]
  cases hj : b.offset? js with
  | none => rfl
  | some l =>
    have hkl : k ≠ l := by
      rintro rfl
      exact hne (offset?_inj hj hk)
    simp [hkl]

/-- Two buffers of the same extents have the same cells, but for the values of those that have a
multi-index. -/
structure Twins (b c : Buffer R) : Prop where
  dims : c.dims = b.dims
  size : c.cells.size = b.cells.size
  rest (k : Nat) (h : ∀ is, b.offset? is ≠ some k) : c.cells[k]? = b.cells[k]?

namespace Twins

theorem refl (b : Buffer R) : b.Twins b := ⟨rfl, rfl, fun _ _ => rfl⟩

theorem symm (h : b.Twins c) : c.Twins b := by
  refine ⟨h.dims.symm, h.size.symm, fun k hk => (h.rest k fun is => ?_).symm⟩
  rw [← offset?_congr h.dims]
  exact hk is

theorem trans (h : b.Twins c) (h' : c.Twins d) : b.Twins d := by
  refine ⟨h'.dims.trans h.dims, h'.size.trans h.size, fun k hk => ?_⟩
  refine (h'.rest k fun is => ?_).trans (h.rest k hk)
  rw [offset?_congr h.dims]
  exact hk is

theorem set? (h : b.set? is value = some c) : b.Twins c := by
  obtain ⟨k, hk, rfl⟩ := Option.map_eq_some_iff.1 h
  refine ⟨rfl, by simp, fun l hl => ?_⟩
  have hkl : k ≠ l := by
    rintro rfl
    exact hl is hk
  simp [hkl]

/-- Twins with the same value at every multi-index are equal. -/
theorem eq (h : b.Twins c) (hcells : ∀ is, c.get? is = b.get? is) : c = b := by
  obtain ⟨bdims, bcells⟩ := b
  obtain ⟨cdims, ccells⟩ := c
  obtain rfl : cdims = bdims := h.dims
  congr 1
  apply Array.ext_getElem?
  intro k
  by_cases hk : ∃ is, Buffer.offset? (⟨cdims, bcells⟩ : Buffer R) is = some k
  · obtain ⟨is, his⟩ := hk
    have hcell := hcells is
    have his' : Buffer.offset? (⟨cdims, ccells⟩ : Buffer R) is = some k := his
    simpa [Buffer.get?, his, his'] using hcell
  · exact h.rest k fun is his => hk ⟨is, his⟩

end Twins

theorem get?_set?_congr {b' c' : Buffer R} (hb : b.Twins b') (h : b.set? is value = some c)
    (h' : b'.set? is value = some c') (hjs : b'.get? js = b.get? js) :
    c'.get? js = c.get? js := by
  by_cases hne : js = is
  · subst hne
    have hoffset := offset?_congr hb.dims js
    obtain ⟨k, hk, rfl⟩ := Option.map_eq_some_iff.1 h
    obtain ⟨k', hk', rfl⟩ := Option.map_eq_some_iff.1 h'
    obtain rfl : k' = k := Option.some.inj (hk'.symm.trans (hoffset.trans hk))
    have hc : Buffer.offset? { b with cells := b.cells.setIfInBounds k' value } js = some k' := hk
    have hc' : Buffer.offset? { b' with cells := b'.cells.setIfInBounds k' value } js = some k' :=
      hk'
    simp [Buffer.get?, hc, hc', Array.getElem?_setIfInBounds, hb.size]
  · rw [get?_set?_of_ne h hne, get?_set?_of_ne h' hne, hjs]

end Buffer

namespace Machine

/-- The value of a cell of a bound array. -/
def cell? (m : Machine R) (name : String) (is : List Int64) : Option R :=
  m.arrays[name]?.bind (·.get? is)

theorem cell?_eq_some {m : Machine R} {name : String} {is : List Int64} {x : R} :
    m.cell? name is = some x ↔ ∃ b, m.arrays[name]? = some b ∧ b.get? is = some x :=
  Option.bind_eq_some_iff

/-- A reference has the value of the cell at its indices. -/
theorem eval_access_eq_ok [Arithmetic R] {m : Machine R} {a : GridArray} {es : List Expr} {x : R} :
    m.eval (.access a es) = .ok x ↔
      ∃ is, m.evalIndices es = .ok is ∧ m.cell? a.name is = some x := by
  simp only [eval, bind_eq_ok, array_eq_ok, bound_eq_ok, cell?_eq_some]

theorem eval_binary_eq_ok [Arithmetic R] {m : Machine R} {op : BinaryOp} {l r : Expr} {x : R} :
    m.eval (.binary op l r) = .ok x ↔
      ∃ y z, m.eval l = .ok y ∧ m.eval r = .ok z ∧ Arithmetic.apply op y z = x := by
  simp only [eval, bind_eq_ok]
  constructor
  · rintro ⟨y, hy, z, hz, h⟩
    exact ⟨y, z, hy, hz, Except.ok.inj h⟩
  · rintro ⟨y, z, hy, hz, rfl⟩
    exact ⟨y, hy, z, hz, rfl⟩

/-- The machines `m` and `m'` differ in indices of loops and in the cells of some arrays only, and
have the same values in the given cells. -/
structure Resembles (written : String → Prop) (same : String → List Int64 → Prop)
    (m m' : Machine R) : Prop where
  scalars : m'.scalars = m.scalars
  sizes : m'.sizes = m.sizes
  arrays (name : String) (h : ¬ written name) : m'.arrays[name]? = m.arrays[name]?
  twins (name : String) : Option.Rel Buffer.Twins m.arrays[name]? m'.arrays[name]?
  cells (name : String) (is : List Int64) (h : same name is) : m'.cell? name is = m.cell? name is

/-- The machine `m'` differs from `m` in indices of loops and in the given cells only. -/
def ChangesOnly (touched : String → List Int64 → Prop) (m m' : Machine R) : Prop :=
  m.Resembles (fun name => ∃ is, touched name is) (fun name is => ¬ touched name is) m'

theorem rel_refl {α : Type} {P : α → α → Prop} (hP : ∀ x, P x x) (x? : Option α) :
    Option.Rel P x? x? := by
  cases x? with
  | none => exact .none
  | some x => exact .some (hP x)

theorem rel_symm {α : Type} {P : α → α → Prop} (hP : ∀ {x y}, P x y → P y x) {x? y? : Option α}
    (h : Option.Rel P x? y?) : Option.Rel P y? x? := by
  cases h with
  | none => exact .none
  | some h => exact .some (hP h)

theorem rel_trans {α : Type} {P : α → α → Prop} (hP : ∀ {x y z}, P x y → P y z → P x z)
    {x? y? z? : Option α} (h : Option.Rel P x? y?) (h' : Option.Rel P y? z?) :
    Option.Rel P x? z? := by
  cases h with
  | none => exact h'
  | some h =>
    cases h' with
    | some h' => exact .some (hP h h')

namespace Resembles

variable {written written' : String → Prop} {same same' : String → List Int64 → Prop}
  {m m' m'' : Machine R}

theorem refl (written : String → Prop) (same : String → List Int64 → Prop) (m : Machine R) :
    m.Resembles written same m :=
  ⟨rfl, rfl, fun _ _ => rfl, fun _ => rel_refl Buffer.Twins.refl _, fun _ _ _ => rfl⟩

theorem symm (h : m.Resembles written same m') : m'.Resembles written same m :=
  ⟨h.scalars.symm, h.sizes.symm, fun name hname => (h.arrays name hname).symm,
    fun name => rel_symm Buffer.Twins.symm (h.twins name),
    fun name is his => (h.cells name is his).symm⟩

theorem trans (h : m.Resembles written same m') (h' : m'.Resembles written same m'') :
    m.Resembles written same m'' :=
  ⟨h'.scalars.trans h.scalars, h'.sizes.trans h.sizes,
    fun name hname => (h'.arrays name hname).trans (h.arrays name hname),
    fun name => rel_trans (P := Buffer.Twins) Buffer.Twins.trans (h.twins name) (h'.twins name),
    fun name is his => (h'.cells name is his).trans (h.cells name is his)⟩

/-- An array with the same values in all its cells is the same. -/
theorem array_eq (h : m.Resembles written same m') {name : String}
    (hname : ∀ is, same name is) : m'.arrays[name]? = m.arrays[name]? := by
  have hcells := fun is => h.cells name is (hname is)
  have htwins := h.twins name
  unfold cell? at hcells
  generalize m.arrays[name]? = b?, m'.arrays[name]? = c? at hcells htwins
  cases htwins with
  | none => rfl
  | some htwins => exact congrArg some (htwins.eq hcells)

/-- The cells that two comparisons of the same machines find the same. -/
theorem join {same₁ same₂ : String → List Int64 → Prop} (h : m.Resembles written same₁ m')
    (h' : m.Resembles written same₂ m')
    (hsame : ∀ name is, same name is → same₁ name is ∨ same₂ name is) :
    m.Resembles written same m' := by
  refine ⟨h.scalars, h.sizes, h.arrays, h.twins, fun name is his => ?_⟩
  rcases hsame name is his with his | his
  · exact h.cells name is his
  · exact h'.cells name is his

theorem mono (h : m.Resembles written same m') (hw : ∀ name, written name → written' name)
    (hs : ∀ name is, same' name is → same name is) : m.Resembles written' same' m' :=
  ⟨h.scalars, h.sizes, fun name hname => h.arrays name fun hwritten => hname (hw name hwritten),
    h.twins, fun name is his => h.cells name is (hs name is his)⟩

theorem bindIndex (h : m.Resembles written same m') (name : String) (i : Int64) :
    m.Resembles written same (m'.bindIndex name i) :=
  ⟨h.scalars, h.sizes, h.arrays, h.twins, h.cells⟩

theorem bindIndices (h : m.Resembles written same m') (name : String) (i : Int64) :
    (m.bindIndex name i).Resembles written same (m'.bindIndex name i) :=
  ⟨h.scalars, h.sizes, h.arrays, h.twins, h.cells⟩

theorem idle (written : String → Prop) (same : String → List Int64 → Prop) (m : Machine R) :
    m.Resembles written same m.idle :=
  ⟨rfl, rfl, fun _ _ => rfl, fun _ => rel_refl Buffer.Twins.refl _, fun _ _ _ => rfl⟩

/-- A store of one value to the same cell in both machines. -/
theorem set (h : m.Resembles written same m') {name : String} {b b' c c' : Buffer R}
    {is : List Int64} {value : R} (hb : m.arrays[name]? = some b) (hb' : m'.arrays[name]? = some b')
    (hc : b.set? is value = some c) (hc' : b'.set? is value = some c') (hname : written name) :
    (m.bindArray name c).Resembles written same (m'.bindArray name c') := by
  have htwins : b.Twins b' := by
    have hrel := h.twins name
    rw [hb, hb'] at hrel
    cases hrel with
    | some htwins => exact htwins
  refine ⟨h.scalars, h.sizes, fun other hother => ?_, fun other => ?_, fun other js hjs => ?_⟩
  · have hne : name ≠ other := by
      rintro rfl
      exact hother hname
    simp [hne, h.arrays other hother]
  · by_cases hne : name = other
    · subst hne
      simpa using Option.Rel.some ((Buffer.Twins.set? hc).symm.trans
        (htwins.trans (Buffer.Twins.set? hc')))
    · simpa [hne] using h.twins other
  · have hcell := h.cells other js hjs
    unfold cell? at hcell ⊢
    by_cases hne : name = other
    · subst hne
      rw [hb, hb'] at hcell
      simpa using Buffer.get?_set?_congr htwins hc hc' hcell
    · simpa [hne] using hcell

end Resembles

namespace ChangesOnly

variable {touched touched' : String → List Int64 → Prop} {m m' m'' : Machine R}

theorem mono (h : m.ChangesOnly touched m') (ht : ∀ name is, touched name is → touched' name is) :
    m.ChangesOnly touched' m' :=
  Resembles.mono h (fun name ⟨is, his⟩ => ⟨is, ht name is his⟩)
    fun name is his htouched => his (ht name is htouched)

/-- A store to one of the given cells. -/
theorem set {name : String} {b c : Buffer R} {is : List Int64} {value : R}
    (h : m.ChangesOnly touched m') (hb : m'.arrays[name]? = some b)
    (hset : b.set? is value = some c) (ht : touched name is) :
    m.ChangesOnly touched (m'.bindArray name c) := by
  refine Resembles.trans h
    ⟨rfl, rfl, fun other hother => ?_, fun other => ?_, fun other js hjs => ?_⟩
  · have hne : name ≠ other := by
      rintro rfl
      exact hother ⟨is, ht⟩
    simp [hne]
  · by_cases hne : name = other
    · subst hne
      rw [hb]
      simpa using Option.Rel.some (Buffer.Twins.set? hset)
    · simpa [hne] using rel_refl Buffer.Twins.refl _
  · unfold cell?
    by_cases hne : name = other
    · subst hne
      have hne : js ≠ is := by
        rintro rfl
        exact hjs ht
      rw [hb]
      simpa using Buffer.get?_set?_of_ne hset hne
    · simp [hne]

end ChangesOnly

variable [Arithmetic R]

/-- What each of the statements of a list keeps, the list keeps. -/
theorem runAll_keeps_each {P : Machine R → Prop} {ss : List Stmt}
    (hss : ∀ s ∈ ss, ∀ m, P m → P (run s m).machine) {m : Machine R} (h : P m) :
    P (runAll ss m).machine := by
  induction ss generalizing m with
  | nil => exact h
  | cons s ss ih =>
    refine Outcome.andThen_machine (hss s (by simp) m h) fun m' hm' => ?_
    exact ih (fun s hs => hss s (by simp [hs])) hm'

/-- The trips of a loop that counts up from zero have the indices below its upper bound. -/
theorem runTrips_upTo_keeps {P : Machine R → Prop} {d : Dimension} {e : Expr} {order : LoopOrder}
    {body : Machine R → Outcome R} {upper : Int}
    (hbody : ∀ i : Int64, 0 ≤ i.toInt → i.toInt < upper → ∀ m, P m →
      P (body (m.bindIndex d.name i)).machine) {n : Nat} {index trip : Int64}
    (hindex : 0 ≤ index.toInt) (hn : index.toInt + n ≤ upper) {m : Machine R} (h : P m) :
    P (runTrips ⟨d, .upTo e, [], order⟩ body n index trip m).machine := by
  induction n generalizing index trip m with
  | zero => exact h
  | succ n ih =>
    push_cast at hn
    refine Outcome.andThen_machine (hbody index hindex (by omega) m h) fun m hm => ?_
    refine Outcome.attempt_machine hm fun next hnext => ?_
    refine Outcome.attempt_machine hm fun trip _ => ?_
    have hnext : next.toInt = index.toInt + 1 := Word.add_eq_ok hnext
    exact ih (by omega) (by omega) hm

variable [ExactIntegers R]

theorem runLoop_upTo_keeps {P : Machine R → Prop} {d : Dimension} {e : Expr} {order : LoopOrder}
    {body : Machine R → Outcome R} {m : Machine R}
    (hbody : ∀ upper, m.evalIndex e = .ok upper → ∀ i : Int64, 0 ≤ i.toInt →
      i.toInt < upper.toInt → ∀ m, P m → P (body (m.bindIndex d.name i)).machine) (h : P m) :
    P (runLoop ⟨d, .upTo e, [], order⟩ body m).machine := by
  have hlower : m.evalIndex (.int 0) = .ok 0 :=
    (Evaluates.int (m := m) (n := 0) (by decide)).evalIndex
  refine Outcome.attempt_machine h fun lower hlow => Outcome.attempt_machine h fun upper hup => ?_
  obtain rfl : 0 = lower := Except.ok.inj (hlower.symm.trans hlow)
  split
  · exact h
  · have htrips : tripCount (0 : Int64).toInt upper.toInt (1 : Int64).toInt =
        upper.toInt.toNat := by simp [tripCount]
    show P (runTrips _ body (tripCount (0 : Int64).toInt upper.toInt (1 : Int64).toInt) _ _
      m).machine
    rw [htrips]
    by_cases hpos : 0 ≤ upper.toInt
    · have hzero : (0 : Int64).toInt = 0 := rfl
      exact runTrips_upTo_keeps (hbody upper hup) (by decide) (by omega) h
    · have hnone : upper.toInt.toNat = 0 := by omega
      rw [hnone]
      exact h

/-- A property is kept by a nest of loops that count up from zero, if the statement inside keeps it
where every index has what is known of the indices within the bounds. -/
theorem run_nest_keeps {P : Machine R → Prop} {I : LoopHead → Int64 → Prop} {heads : List LoopHead}
    {cell : Stmt} (hup : ∀ head ∈ heads, ∃ d e order, head = ⟨d, .upTo e, [], order⟩)
    (hnames : (heads.map fun head => head.dim.name).Nodup)
    (hinner : ∀ head ∈ heads, ∀ inner ∈ cell.loops, head.dim.name ∉ inner.bound)
    (hbind : ∀ m name i, P m → P (m.bindIndex name i))
    (hindex : ∀ head ∈ heads, ∀ m, P m → ∀ upper, m.evalIndex head.bounds.upper = .ok upper →
      ∀ i : Int64, 0 ≤ i.toInt → i.toInt < upper.toInt → I head i)
    (hcell : ∀ m, P m → (∀ head ∈ heads, ∃ i, m.indices[head.dim.name]? = some i ∧ I head i) →
      P (run cell m).machine) {m : Machine R} (h : P m) : P (run (cell.nest heads) m).machine := by
  induction heads generalizing cell m with
  | nil => exact hcell m h (by simp)
  | cons head heads ih =>
    obtain ⟨hfresh, hrest⟩ := List.nodup_cons.1 hnames
    have hne : ∀ outer ∈ heads, outer.dim.name ≠ head.dim.name := by
      intro outer houter heq
      exact hfresh (List.mem_map.2 ⟨outer, houter, heq⟩)
    obtain ⟨d, e, order, rfl⟩ := hup head (by simp)
    refine ih (fun head hh => hup head (by simp [hh]))
      hrest ?_ (fun head hh => hindex head (by simp [hh])) ?_ h
    · intro outer houter inner hin
      rw [Stmt.loops_loop] at hin
      rcases List.mem_cons.1 hin with rfl | hin
      · simpa [LoopHead.bound] using hne outer houter
      · exact hinner outer (by simp [houter]) inner hin
    · intro m hm hon
      -- a pass of this loop leaves the indices of the loops around it alone
      let Q (m : Machine R) := P m ∧
        ∀ outer ∈ heads, ∃ i, m.indices[outer.dim.name]? = some i ∧ I outer i
      refine (runLoop_upTo_keeps (P := Q) (m := m) (fun upper hupper i hlow hhigh m' hm' => ?_)
        ⟨hm, hon⟩).1
      have hentered : ∀ outer ∈ (⟨d, .upTo e, [], order⟩ : LoopHead) :: heads,
          ∃ j, (m'.bindIndex d.name i).indices[outer.dim.name]? = some j ∧ I outer j := by
        intro outer houter
        rcases List.mem_cons.1 houter with rfl | houter
        · exact ⟨i, by simp, hindex _ (by simp) m hm upper hupper i hlow hhigh⟩
        · obtain ⟨j, hj, hI⟩ := hm'.2 outer houter
          have hne : d.name ≠ outer.dim.name := (hne outer houter).symm
          exact ⟨j, by simp [hne, hj], hI⟩
      refine ⟨hcell _ (hbind m' d.name i hm'.1) hentered, fun outer houter => ?_⟩
      obtain ⟨j, hj, hI⟩ := hentered outer (by simp [houter])
      exact ⟨j, by rw [run_indices (hinner outer (by simp [houter])), hj], hI⟩

end Machine
end GridKernel
