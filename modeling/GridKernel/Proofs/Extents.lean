import GridKernel.Proofs.ExactValues
import GridKernel.Proofs.Integers
import GridKernel.GridArray

/-! Extents of arrays. Folded sums and differences keep exact values, so the allocated extents of an
array have the values that its buffer is viewed with. -/
namespace GridKernel

namespace GridArray

theorem repeated?_eq_none {seen names : List String} (hnames : names.Nodup)
    (hseen : ∀ n ∈ names, n ∉ seen) : repeated? seen names = none := by
  induction names generalizing seen with
  | nil => rfl
  | cons n names ih =>
    rw [List.nodup_cons] at hnames
    rw [repeated?, if_neg (hseen n (by simp))]
    apply ih hnames.2
    intro n' hn' hmem
    rcases List.mem_cons.1 hmem with rfl | hmem
    · exact hnames.1 hn'
    · exact hseen n' (by simp [hn']) hmem

/-- Axes of different names make an array. -/
theorem named_of_nodup (name : String) {dims : List Dimension} (element : ElementType)
    (h : (dims.map Dimension.name).Nodup) :
    named name dims element =
      .ok ⟨name, element, dims, dims.map Dimension.extent, dims.map fun _ => .none, .external⟩ := by
  rw [named, repeated?_eq_none h (by simp)]

theorem nodup_of_repeated? {seen names : List String} (h : repeated? seen names = none) :
    names.Nodup ∧ ∀ n ∈ names, n ∉ seen := by
  induction names generalizing seen with
  | nil => exact ⟨List.nodup_nil, by simp⟩
  | cons n names ih =>
    rw [repeated?] at h
    split at h
    · cases h
    · rename_i hn
      obtain ⟨hnodup, hfresh⟩ := ih h
      refine ⟨List.nodup_cons.2 ⟨fun hmem => hfresh n hmem (by simp), hnodup⟩, ?_⟩
      intro n' hn' hmem
      rcases List.mem_cons.1 hn' with rfl | hn'
      · exact hn hmem
      · exact hfresh n' hn' (by simp [hmem])

/-- An array is made of axes of different names, its shape their extents. -/
theorem named_eq_ok {name : String} {dims : List Dimension} {element : ElementType} {a : GridArray}
    (h : named name dims element = .ok a) :
    (dims.map Dimension.name).Nodup ∧
      a = ⟨name, element, dims, dims.map Dimension.extent, dims.map fun _ => .none, .external⟩ := by
  unfold named at h
  split at h
  · cases h
  · rename_i hrepeated
    exact ⟨(nodup_of_repeated? hrepeated).1, (Except.ok.inj h).symm⟩

theorem setHalo_eq {a : GridArray} {halo : List Extent} (h : halo.length = a.rank) :
    a.setHalo halo = .ok { a with halo } := if_pos h

theorem allocation_eq {a : GridArray} {es : List Expr} (hlength : es.length = a.rank)
    (h : ∀ i e, es[i]? = some e → a.allocated i = .ok e) : a.allocation = .ok es := by
  rw [allocation, mapM_eq_ok, List.forall₂_iff_get]
  refine ⟨by rw [List.length_range, hlength], fun i hi hi' => h _ _ ?_⟩
  simp

theorem allocated_eq {a : GridArray} {i : Nat} {halo : Extent} {size : Expr} {w : UInt64}
    (hhalo : a.halo[i]? = some halo) (hsize : a.shape[i]? = some size)
    (hw : Word.addSize halo.left halo.right = .ok w) : a.allocated i = size.add (.ofSize w) := by
  simp [allocated, entryAt, hhalo, hsize, hw]

end GridArray

theorem Word.add_zero (n : Int64) : Word.add n 0 = .ok n := by
  have hlow := n.le_toInt
  have hhigh := n.toInt_lt
  have hzero : (0 : Int64).toInt = 0 := rfl
  rw [Word.add, hzero, Int.add_zero, Word.int_eq ⟨hlow, hhigh⟩, Int64.ofInt_toInt]

theorem Expr.add_zero (e : Expr) : e.add (.ofSize 0) = .ok e := by
  have hzero : Expr.ofSize 0 = .int 0 := rfl
  rw [hzero]
  cases e with
  | int n =>
    show (Expr.int <$> Word.add n 0 : Result Expr) = .ok (.int n)
    rw [Word.add_zero]
    rfl
  | _ => rfl

/-- Without a halo an axis is allocated as far as its domain. -/
theorem GridArray.allocated_bare {a : GridArray} {i : Nat} {size : Expr}
    (hhalo : a.halo[i]? = some .none) (hsize : a.shape[i]? = some size) :
    a.allocated i = .ok size := by
  rw [allocated_eq (w := 0) hhalo hsize rfl, Expr.add_zero]

namespace Expr

variable {P : Expr → Prop} {e f g : Expr}

/-- An expression without operands is its own only node. -/
theorem nodes_of_leaf (hleaf : e.nodes = [e]) (h : P e) : ∀ x ∈ e.nodes, P x := by
  rw [hleaf]
  intro x hx
  obtain rfl := List.mem_singleton.1 hx
  exact h

theorem nodes_of_binary {op : BinaryOp} (h : P (.binary op e f)) (he : ∀ x ∈ e.nodes, P x)
    (hf : ∀ x ∈ f.nodes, P x) : ∀ x ∈ (Expr.binary op e f).nodes, P x := by
  intro x hx
  rcases List.mem_cons.1 hx with rfl | hx
  · exact h
  · rcases List.mem_append.1 hx with hx | hx
    · exact he x hx
    · exact hf x hx

variable (hint : ∀ k, P (.int k)) (hbinary : ∀ op l r, P (.binary op l r))
include hint hbinary

/-- What literals and operators have, an operator that folds literals keeps. -/
theorem nodes_of_folded {op : BinaryOp} (h : Folded op e f g) (he : ∀ x ∈ e.nodes, P x)
    (hf : ∀ x ∈ f.nodes, P x) : ∀ x ∈ g.nodes, P x := by
  cases h with
  | literals => exact nodes_of_leaf rfl (hint _)
  | left => exact he
  | right => exact hf
  | opposite => exact nodes_of_binary (hbinary _ _ _) he (nodes_of_leaf rfl (hint _))
  | kept => exact nodes_of_binary (hbinary _ _ _) he hf

end Expr

theorem GridArray.allocated_eq_ok {a : GridArray} {i : Nat} {e : Expr} :
    a.allocated i = .ok e ↔ ∃ halo size width, a.halo[i]? = some halo ∧ a.shape[i]? = some size ∧
      Word.addSize halo.left halo.right = .ok width ∧ size.add (.ofSize width) = .ok e := by
  simp only [allocated, bind_eq_ok, entryAt_eq_ok]
  constructor
  · rintro ⟨halo, hhalo, size, hsize, width, hwidth, h⟩
    exact ⟨halo, size, width, hhalo, hsize, hwidth, h⟩
  · rintro ⟨halo, size, width, hhalo, hsize, hwidth, h⟩
    exact ⟨halo, hhalo, size, hsize, width, hwidth, h⟩

/-- The nodes of an allocated extent are those of the shape, but for literals and operators. -/
theorem GridArray.nodes_of_allocated {P : Expr → Prop} (hint : ∀ k, P (.int k))
    (hbinary : ∀ op l r, P (.binary op l r)) {a : GridArray} {i : Nat} {size g : Expr}
    (hsize : a.shape[i]? = some size) (hnodes : ∀ x ∈ size.nodes, P x)
    (h : a.allocated i = .ok g) : ∀ x ∈ g.nodes, P x := by
  obtain ⟨halo, size', width, -, hsize', -, h⟩ := allocated_eq_ok.1 h
  obtain rfl := Option.some.inj (hsize.symm.trans hsize')
  exact Expr.nodes_of_folded hint hbinary (Expr.folded_of_add h) hnodes
    (Expr.nodes_of_leaf rfl (hint _))

/-- An entry of a shape is the source of the allocated extent at its position. -/
theorem GridArray.nodes_of_allocation {P : Expr → Prop} (hint : ∀ k, P (.int k))
    (hbinary : ∀ op l r, P (.binary op l r)) {a : GridArray}
    (hshape : ∀ e ∈ a.shape, ∀ n ∈ e.nodes, P n) {i : Nat} {e : Expr}
    (h : a.allocated i = .ok e) : ∀ n ∈ e.nodes, P n := by
  obtain ⟨halo, size, width, -, hsize, -⟩ := allocated_eq_ok.1 h
  exact nodes_of_allocated hint hbinary hsize (hshape size (List.mem_of_getElem? hsize)) h

namespace Machine

variable {R : Type} [Arithmetic R] {m m' : Machine R}

theorem ofInt_toNat (n : UInt64) : Int64.ofInt n.toNat = Word.signed n := by
  rw [Word.signed, Int64.ofInt_eq_ofNat, ← UInt64.toInt64_ofNat', UInt64.ofNat_toNat]

/-- An expression has an exact integer as its value; a literal is that integer itself. -/
def Reads (m : Machine R) (e : Expr) (n : Int) : Prop :=
  m.Evaluates e n ∧ ∀ k, e = .int k → k.toInt = n

theorem Evaluates.reads {e : Expr} {n : Int} (h : m.Evaluates e n) (hlit : ∀ k, e ≠ .int k) :
    m.Reads e n := ⟨h, fun k hk => absurd hk (hlit k)⟩

namespace Reads

theorem congr {e : Expr} {n : Int} (h : m.Reads e n) (hm : m'.eval e = m.eval e) :
    m'.Reads e n := ⟨h.1.congr hm, h.2⟩

theorem literal {k : Int64} {n : Int} (h : m.Reads (.int k) n) :
    k.toInt = n ∧ k.toInt.natAbs ≤ 2 ^ 53 := by
  have hk := h.2 k rfl
  exact ⟨hk, hk ▸ h.1.bounded⟩

theorem neg_literal {k : Int64} {n : Int} (h : m.Reads (.int k) n) :
    Word.neg k = .ok (Int64.ofInt (-n)) := by
  obtain ⟨rfl, hk⟩ := h.literal
  exact Word.int_eq (by omega)

/-- A literal that is added to another operand, or subtracted from one, vanishes, stays as it is, or
becomes its magnitude under the opposite operator. -/
theorem build_int {op op' : BinaryOp} (hop : op.Opposite op') {e : Expr} {k : Int64} {b n : Int}
    (he : e.int? = none) (hk : m.Reads (.int k) b) (hneutral : b = 0 → m.Reads e n)
    (hkept : m.Evaluates (.binary op e (.int k)) n)
    (hopposite : m.Evaluates (.binary op' e (.int (Int64.ofInt (-b)))) n) :
    ∃ g, op.build e (.int k) = .ok g ∧ m.Reads g n := by
  rw [Expr.build_int hop he]
  split
  · rename_i hzero
    obtain ⟨rfl, -⟩ := hk.literal
    exact ⟨e, rfl, hneutral (by rw [eq_of_beq hzero, Int64.toInt_zero])⟩
  · split
    · exact ⟨_, by rw [hk.neg_literal, ok_bind]; rfl, hopposite.reads (by simp)⟩
    · exact ⟨_, rfl, hkept.reads (by simp)⟩

variable [ExactIntegers R]

theorem int {k : Int64} (h : k.toInt.natAbs ≤ 2 ^ 53) : m.Reads (.int k) k.toInt := by
  refine ⟨Evaluates.int h, ?_⟩
  rintro _ ⟨⟩
  rfl

theorem size {name : String} {n : Int} (h : n.natAbs ≤ 2 ^ 53)
    (hn : m.sizes[name]? = some (Int64.ofInt n)) : m.Reads (.size name) n :=
  (Evaluates.size h hn).reads (by simp)

theorem ofSize {n : UInt64} (h : n.toNat ≤ 2 ^ 53) : m.Reads (.ofSize n) n.toNat := by
  have hword : n.toInt64.toInt = n.toNat := by
    rw [← Word.signed, ← ofInt_toNat, toInt_ofInt (by omega)]
  have hint : m.Reads (.int n.toInt64) n.toInt64.toInt := int (by omega)
  rwa [hword] at hint

theorem word {n : Int} (h : n.natAbs ≤ 2 ^ 53) : m.Reads (.int (Int64.ofInt n)) n := by
  have hint : m.Reads (.int (Int64.ofInt n)) (Int64.ofInt n).toInt := int (by rwa [toInt_ofInt h])
  rwa [toInt_ofInt h] at hint

/-- A folded sum has the sum as its value. -/
theorem add {e f : Expr} {a b : Int} (he : m.Reads e a) (hf : m.Reads f b)
    (h : (a + b).natAbs ≤ 2 ^ 53) : ∃ g, e.add f = .ok g ∧ m.Reads g (a + b) := by
  have hkept := he.1.add hf.1 h
  unfold Expr.add
  split
  · rename_i j k
    obtain ⟨rfl, hj⟩ := he.literal
    obtain ⟨rfl, hk⟩ := hf.literal
    exact ⟨_, by rw [Word.add, Word.int_eq (by omega)]; rfl, word h⟩
  · rename_i k hlit
    have hmagnitude := (word (m := m) (n := -b) (by have := hf.1.bounded; omega)).1
    have hopposite := he.1.sub hmagnitude (by simpa using h)
    rw [Int.sub_neg] at hopposite
    have hlit := Expr.int?_eq_none.2 hlit
    have hbuild := build_int (.inl ⟨rfl, rfl⟩) hlit hf (fun hb => by simpa [hb] using he) hkept
      hopposite
    rwa [Expr.build_int (.inl ⟨rfl, rfl⟩) hlit] at hbuild
  · rename_i j hlit
    by_cases hzero : j = 0
    · subst hzero
      obtain ⟨rfl, -⟩ := he.literal
      exact ⟨f, rfl, by simpa using hf⟩
    · exact ⟨_, by simp [hzero], hkept.reads (by simp)⟩
  · exact ⟨_, rfl, hkept.reads (by simp)⟩

/-- A folded difference has the difference as its value. -/
theorem sub {e f : Expr} {a b : Int} (he : m.Reads e a) (hf : m.Reads f b)
    (h : (a - b).natAbs ≤ 2 ^ 53) : ∃ g, e.sub f = .ok g ∧ m.Reads g (a - b) := by
  have hkept := he.1.sub hf.1 h
  unfold Expr.sub
  split
  · rename_i j k
    obtain ⟨rfl, hj⟩ := he.literal
    obtain ⟨rfl, hk⟩ := hf.literal
    exact ⟨_, by rw [Word.sub, Word.int_eq (by omega)]; rfl, word h⟩
  · rename_i k hlit
    have hmagnitude := (word (m := m) (n := -b) (by have := hf.1.bounded; omega)).1
    have hopposite := he.1.add hmagnitude (by rwa [← Int.sub_eq_add_neg])
    rw [← Int.sub_eq_add_neg] at hopposite
    have hlit := Expr.int?_eq_none.2 hlit
    have hbuild := build_int (.inr ⟨rfl, rfl⟩) hlit hf (fun hb => by simpa [hb] using he) hkept
      hopposite
    rwa [Expr.build_int (.inr ⟨rfl, rfl⟩) hlit] at hbuild
  · exact ⟨_, rfl, hkept.reads (by simp)⟩

end Reads

/-- A buffer has the extents that an array allocates. -/
def Fits (m : Machine R) (a : GridArray) (b : Buffer R) : Prop :=
  ∃ es, a.allocation = .ok es ∧ List.Forall₂ (fun e (n : UInt64) => m.Evaluates e n.toNat) es b.dims

theorem Fits.extent_le {a : GridArray} {b : Buffer R} (h : m.Fits a b) :
    ∀ n ∈ b.dims, n.toNat ≤ 2 ^ 53 := by
  obtain ⟨es, -, hes⟩ := h
  generalize b.dims = ns at hes
  induction hes with
  | nil => simp
  | cons he _ ih =>
    have hn := he.bounded
    intro n hn'
    rcases List.mem_cons.1 hn' with rfl | hn'
    · omega
    · exact ih n hn'

theorem Fits.length_dims {a : GridArray} {b : Buffer R} (h : m.Fits a b) :
    b.dims.length = a.rank := by
  obtain ⟨es, hallocation, hes⟩ := h
  rw [← hes.length_eq, ← (mapM_eq_ok.1 hallocation).length_eq, List.length_range]

/-- A buffer fits an array when its extents are the values of the allocated extents. -/
theorem fits_iff {a : GridArray} {b : Buffer R} {ns : List Nat} (hlength : ns.length = a.rank)
    (hns : ∀ (i n : Nat), ns[i]? = some n → ∃ e, a.allocated i = .ok e ∧ m.Evaluates e n) :
    m.Fits a b ↔ b.dims.map UInt64.toNat = ns := by
  have hentries : ∀ p ∈ ns.zipIdx, ∃ e, a.allocated p.2 = .ok e ∧ m.Evaluates e p.1 :=
    fun p hp => hns p.2 p.1 (List.mem_zipIdx_iff_getElem?.1 hp)
  obtain ⟨es, hes⟩ := exists_forall₂ hentries
  have hallocation : a.allocation = .ok es := by
    have hrange : ns.zipIdx.map Prod.snd = List.range a.rank := by
      rw [List.zipIdx_map_snd, hlength, List.range_eq_range']
    rw [GridArray.allocation, mapM_eq_ok, ← hrange, List.forall₂_map_left_iff]
    exact hes.imp fun _ _ h => h.1
  have hvalues : List.Forall₂ (fun (n : Nat) e => m.Evaluates e n) ns es := by
    rw [← List.zipIdx_map_fst 0 ns, List.forall₂_map_left_iff]
    exact hes.imp fun _ _ h => h.2
  constructor
  · rintro ⟨es', hallocation', hes'⟩
    obtain rfl := Except.ok.inj (hallocation.symm.trans hallocation')
    have hboth := forall₂_trans hvalues hes'
    rw [← List.map_id ns, eq_comm, map_eq_map_iff_forall₂]
    refine hboth.imp ?_
    rintro n k ⟨e, hn, hk⟩
    exact_mod_cast hn.unique hk
  · rintro rfl
    rw [List.forall₂_map_left_iff] at hvalues
    exact ⟨es, hallocation, hvalues.flip⟩

/-- A view of an array over a buffer of its extents succeeds. -/
theorem Fits.checkView {a : GridArray} {b : Buffer R} (h : m.Fits a b)
    (hb : m.arrays[a.name]? = some b) : m.checkView a = .ok () := by
  obtain ⟨es, hallocation, hes⟩ := h
  have hexpected : (List.range a.rank).mapM (fun axis => do m.evalIndex (← a.allocated axis)) =
      .ok (b.dims.map Word.signed) := by
    rw [mapM_eq_ok, List.forall₂_map_right_iff]
    refine (forall₂_trans (mapM_eq_ok.1 hallocation) hes).imp ?_
    rintro axis n ⟨e, he, hn⟩
    rw [he, ok_bind, hn.evalIndex, ofInt_toNat]
  rw [Machine.checkView, hexpected]
  simp [array, hb, bound]

/-- A view succeeds over buffers only that have an extent for every axis of the array. -/
theorem length_of_checkView {a : GridArray} (h : m.checkView a = .ok ()) :
    ∃ b, m.arrays[a.name]? = some b ∧ b.dims.length = a.rank := by
  obtain ⟨expected, hexpected, h⟩ := bind_eq_ok.1 h
  obtain ⟨b, hb, h⟩ := bind_eq_ok.1 h
  split at h
  · rename_i hdims
    have hlength : expected.length = a.rank := by
      rw [← (mapM_eq_ok.1 hexpected).length_eq, List.length_range]
    exact ⟨b, (array_eq_ok m a.name).1 hb, by rw [← hlength, ← hdims, List.length_map]⟩
  · cases h

theorem runAll_singleton (s : Stmt) (m : Machine R) : runAll [s] m = run s m := by
  rw [runAll, Outcome.andThen]
  split
  · rename_i hfault
    rw [runAll, Outcome.done, ← hfault]
  · rfl

/-- Views of arrays over buffers of their extents change nothing. -/
theorem runAll_views (views : List GridArray) (rest : List Stmt)
    (h : ∀ a ∈ views, ∃ b, m.arrays[a.name]? = some b ∧ m.Fits a b) :
    runAll (views.map .view ++ rest) m = runAll rest m := by
  induction views with
  | nil => rfl
  | cons a views ih =>
    obtain ⟨b, hb, hfits⟩ := h a (by simp)
    have hview : run (.view a) m = .done m := by rw [run, hfits.checkView hb, Outcome.attempt_ok]
    rw [List.map_cons, List.cons_append, runAll, hview, Outcome.done_andThen]
    exact ih fun a ha => h a (by simp [ha])

end Machine
end GridKernel
