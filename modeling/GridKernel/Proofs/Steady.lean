import GridKernel.Proofs.Extents
import GridKernel.Proofs.Moves
import GridKernel.Proofs.Uses

/-! Steady expressions. Offsets and extents are sums and differences of literals and axis sizes, so
their values stay the same while a kernel runs. -/
namespace GridKernel

namespace Expr

/-- An expression names no array, no scalar and no unknown entity. -/
def Plain (e : Expr) : Prop := ∀ u : Entities, ∀ x ∈ e.nodes, u.Knows x

namespace Plain

theorem int (k : Int64) : (Expr.int k).Plain := fun _ => nodes_of_leaf rfl trivial

theorem size (name : String) : (Expr.size name).Plain := fun _ => nodes_of_leaf rfl trivial

theorem dim (d : Dimension) : (Expr.dim d).Plain := fun _ => nodes_of_leaf rfl trivial

variable {e f g : Expr}

theorem add (he : e.Plain) (hf : f.Plain) (h : e.add f = .ok g) : g.Plain :=
  fun u => nodes_of_folded (fun _ => trivial) (fun _ _ _ => trivial) (folded_of_add h) (he u) (hf u)

theorem sub (he : e.Plain) (hf : f.Plain) (h : e.sub f = .ok g) : g.Plain :=
  fun u => nodes_of_folded (fun _ => trivial) (fun _ _ _ => trivial) (folded_of_sub h) (he u) (hf u)

end Plain

/-- An offset along an axis is added to its index without a check. -/
theorem exists_add_dim (e : Expr) (d : Dimension) : ∃ g, e.add (.dim d) = .ok g := by
  cases e <;> exact ⟨_, rfl⟩

/-- Literals and sizes of axes are known before a kernel runs. -/
def IsExtent (e : Expr) : Prop := (∃ k, e = .int k) ∨ ∃ name, e = .size name

end Expr

namespace Machine

variable {R : Type} [Arithmetic R] {m m' : Machine R} {e f : Expr} {a b : Int}

omit [Arithmetic R] in
theorem Agrees.trans {m'' : Machine R} (h : m.Agrees m') (h' : m'.Agrees m'') : m.Agrees m'' :=
  ⟨h'.1.trans h.1, h'.2.trans h.2⟩

/-- An expression has an exact integer as its value in all machines with the scalars and sizes of
`m`. -/
structure Steady (m : Machine R) (e : Expr) (n : Int) : Prop where
  plain : e.Plain
  reads : ∀ m', m.Agrees m' → m'.Reads e n

namespace Steady

theorem bounded (h : m.Steady e a) : a.natAbs ≤ 2 ^ 53 := (h.reads m ⟨rfl, rfl⟩).1.bounded

variable [ExactIntegers R]

theorem int {k : Int64} (h : k.toInt.natAbs ≤ 2 ^ 53) : m.Steady (.int k) k.toInt :=
  ⟨.int k, fun _ _ => .int h⟩

theorem ofSize {n : UInt64} (h : n.toNat ≤ 2 ^ 53) : m.Steady (.ofSize n) n.toNat :=
  ⟨.int _, fun _ _ => .ofSize h⟩

theorem extent (he : e.IsExtent) (h : m.Reads e a) : m.Steady e a := by
  rcases he with ⟨k, rfl⟩ | ⟨name, rfl⟩
  · obtain ⟨rfl, hk⟩ := h.literal
    exact int hk
  · refine ⟨.size name, fun m' hm' => h.congr ?_⟩
    rw [eval, eval, hm'.2]

theorem add (he : m.Steady e a) (hf : m.Steady f b) (h : (a + b).natAbs ≤ 2 ^ 53) :
    ∃ g, e.add f = .ok g ∧ m.Steady g (a + b) := by
  obtain ⟨g, hg, -⟩ := (he.reads m ⟨rfl, rfl⟩).add (hf.reads m ⟨rfl, rfl⟩) h
  refine ⟨g, hg, he.plain.add hf.plain hg, fun m' hm' => ?_⟩
  obtain ⟨g', hg', hreads⟩ := (he.reads m' hm').add (hf.reads m' hm') h
  obtain rfl : g = g' := Except.ok.inj (hg.symm.trans hg')
  exact hreads

theorem sub (he : m.Steady e a) (hf : m.Steady f b) (h : (a - b).natAbs ≤ 2 ^ 53) :
    ∃ g, e.sub f = .ok g ∧ m.Steady g (a - b) := by
  obtain ⟨g, hg, -⟩ := (he.reads m ⟨rfl, rfl⟩).sub (hf.reads m ⟨rfl, rfl⟩) h
  refine ⟨g, hg, he.plain.sub hf.plain hg, fun m' hm' => ?_⟩
  obtain ⟨g', hg', hreads⟩ := (he.reads m' hm').sub (hf.reads m' hm') h
  obtain rfl : g = g' := Except.ok.inj (hg.symm.trans hg')
  exact hreads

end Steady

/-- An axis of one cell needs no loop. -/
theorem valid_still {s : Span} {near far : Expr} (hone : s.extent = 1) (hnear : m.Steady near 0)
    (hfar : m.Steady far s.origin) : m.Valid ⟨s, near, far, none⟩ := by
  have hbounded := hfar.bounded
  have hfirst : ∀ k : Nat, k < s.extent → k = 0 := by
    intro k hk
    omega
  refine ⟨⟨fun _ => hone, nofun⟩, ?_, ?_, nofun, ?_, ?_⟩
  · intro k hk
    rw [hfirst k hk]
    simpa using hbounded
  · show s.extent ≤ 2 ^ 53
    omega
  · intro m' k hm' hk _
    rw [hfirst k hk]
    exact (hnear.reads m' hm').1
  · intro m' k hm' hk _
    rw [hfirst k hk]
    simpa using (hfar.reads m' hm').1

variable [ExactIntegers R]

/-- A loop over an axis reaches the indices that are counted from the value of an offset. -/
theorem valid_swept {s : Span} {d : Dimension} {upper offset far : Expr}
    (hupper : m.Steady upper s.extent) (hoffset : m.Steady offset s.origin)
    (hfar : offset.add (.dim d) = .ok far) (hle : s.origin.natAbs + s.extent ≤ 2 ^ 53) :
    m.Valid ⟨s, .dim d, far, some ⟨d, .upTo upper, [], .parallel⟩⟩ := by
  have hdim : ∀ (m' : Machine R) (k : Nat), k < s.extent →
      Lane.On m' ⟨s, .dim d, far, some ⟨d, .upTo upper, [], .parallel⟩⟩ k →
      m'.Evaluates (.dim d) k := by
    intro m' k hk hon
    have hbinds := hon _ rfl
    exact Evaluates.dim (by omega) (hbinds (d.name, Int64.ofInt k) (by
      simp [LoopHead.bindings]))
  refine ⟨⟨?_, ?_⟩, ?_, ?_, ?_, fun m' k _ hk hon => hdim m' k hk hon, ?_⟩
  · rintro ⟨⟩
  · rintro head ⟨⟩
    exact ⟨upper, rfl⟩
  · intro k hk
    show (s.origin + k).natAbs ≤ 2 ^ 53
    have hk : k < s.extent := hk
    omega
  · show s.extent ≤ 2 ^ 53
    omega
  · rintro head ⟨⟩
    exact makes_upTo rfl (by simp) fun m' hm' => (hupper.reads m' hm').1
  · intro m' k hm' hk hon
    have hk : k < s.extent := hk
    have hindex := (hdim m' k hk hon).reads (by simp)
    obtain ⟨g, hg, hreads⟩ := (hoffset.reads m' hm').add hindex (by omega)
    obtain rfl : far = g := Except.ok.inj (hfar.symm.trans hg)
    exact hreads.1

end Machine
end GridKernel
