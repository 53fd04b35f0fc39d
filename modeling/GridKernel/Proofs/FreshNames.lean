import Mathlib.Order.Bounds.Basic
import GridKernel.Proofs.Names
import GridKernel.Proofs.Results

/-! Fresh names. The search for a free name tries the base, then its numbered names in order. Some
name is free among one more of them than there are names taken, so while the taken names can be
counted in a word the search ends before its number leaves one, and names drawn one after another
differ. -/
namespace GridKernel.Identifier

/-- The names that the search tries, in order. -/
def candidate (base : String) : Nat → String
  | 0 => base
  | n + 1 => numbered base n

/-- The search for a free name as a loop over a name to try and the number of the next one. The
number is a signed word of 32 bits, and the search overflows when it is counted past the last. -/
def search (base : String) (taken : List String) (name : String) (number : Nat) : Result String :=
  if name ∈ taken then
    if number + 1 < 2 ^ 31 then search base taken (numbered base number) (number + 1)
    else .error .overflow
  else .ok name
termination_by 2 ^ 31 - number

/-- Searches for a free name and marks it as taken. -/
def searchDraw (base : String) : StateT (List String) Result String := fun taken => do
  let name ← search base taken base 0
  return (name, name :: taken)

theorem numbered_ne_base (base : String) (n : Nat) : numbered base n ≠ base := by
  intro h
  have hlength := congrArg (fun s => s.toList.length) h
  simp only [toList_numbered, List.length_append, List.length_cons] at hlength
  omega

theorem candidate_injective (base : String) : Function.Injective (candidate base) := by
  intro i j h
  match i, j with
  | 0, 0 => rfl
  | 0, j + 1 => exact absurd h.symm (numbered_ne_base base j)
  | i + 1, 0 => exact absurd h (numbered_ne_base base i)
  | i + 1, j + 1 => rw [numbered_injective base h]

variable {base : String} {taken : List String}

/-- A fresh name is the first candidate that is free, and no more candidates come before it than
there are names taken. -/
theorem exists_fresh_eq_candidate (base : String) (taken : List String) :
    ∃ k ≤ taken.toFinset.card, fresh base taken = candidate base k ∧ candidate base k ∉ taken ∧
      ∀ j < k, candidate base j ∈ taken := by
  obtain ⟨k, hfresh, hfree, hleast⟩ : ∃ k, fresh base taken = candidate base k ∧
      candidate base k ∉ taken ∧ ∀ j < k, candidate base j ∈ taken := by
    by_cases hbase : base ∈ taken
    · obtain ⟨k, hk, hfree, hleast⟩ := fresh_of_mem hbase
      refine ⟨k + 1, hk, hfree, fun j hj => ?_⟩
      cases j with
      | zero => exact hbase
      | succ j => exact hleast j (by omega)
    · exact ⟨0, if_neg hbase, hbase, nofun⟩
  refine ⟨k, ?_, hfresh, hfree, hleast⟩
  obtain ⟨n, hn, hnfree⟩ := exists_notMem_of_injective (candidate_injective base) taken
  have hle : k ≤ n := Nat.le_of_not_lt fun hlt => hnfree (hleast n hlt)
  omega

/-- A step of the search passes a candidate that is taken. -/
theorem search_of_mem {k : Nat} (htaken : candidate base k ∈ taken) (hk : k + 1 < 2 ^ 31) :
    search base taken (candidate base k) k =
      search base taken (candidate base (k + 1)) (k + 1) := by
  rw [search, if_pos htaken, if_pos hk]
  rfl

/-- The search ends with the first candidate that is free. -/
theorem search_eq_ok {j k : Nat} (hjk : j ≤ k) (hk : k < 2 ^ 31)
    (htaken : ∀ i < k, candidate base i ∈ taken) (hfree : candidate base k ∉ taken) :
    search base taken (candidate base j) j = .ok (candidate base k) := by
  induction hjk using Nat.decreasingInduction with
  | self => rw [search, if_neg hfree]
  | of_succ j hj ih => rw [search_of_mem (htaken j hj) (by omega), ih]

/-- The search finds the fresh name while the names taken can be counted in a word. -/
theorem search_eq_fresh (base : String) (hsize : taken.toFinset.card < 2 ^ 31) :
    search base taken base 0 = .ok (fresh base taken) := by
  obtain ⟨k, hk, hfresh, hfree, hleast⟩ := exists_fresh_eq_candidate base taken
  rw [hfresh]
  exact search_eq_ok (Nat.zero_le k) (by omega) hleast hfree

theorem run_draw (base : String) (taken : List String) :
    (draw base).run taken = (fresh base taken, fresh base taken :: taken) := rfl

theorem searchDraw_eq_draw (base : String) (taken : List String)
    (hsize : taken.toFinset.card < 2 ^ 31) :
    (searchDraw base).run taken = .ok ((draw base).run taken) := by
  have hrun : (searchDraw base).run taken =
      do let name ← search base taken base 0; return (name, name :: taken) := rfl
  rw [hrun, search_eq_fresh base hsize]
  rfl

/-- Searches one after another draw the same names while these and the names taken at first can be
counted in a word. -/
theorem searchDraws_eq_draws (bases taken : List String)
    (hsize : taken.toFinset.card + bases.length ≤ 2 ^ 31) :
    (bases.mapM searchDraw).run taken = .ok ((bases.mapM draw).run taken) := by
  induction bases generalizing taken with
  | nil => rfl
  | cons base bases ih =>
    rw [List.length_cons] at hsize
    have hgrown : (fresh base taken :: taken).toFinset.card ≤ taken.toFinset.card + 1 := by
      rw [List.toFinset_cons]
      exact Finset.card_insert_le _ _
    have hfirst := searchDraw_eq_draw base taken (by omega)
    have hrest := ih (fresh base taken :: taken) (by omega)
    rw [List.mapM_cons, List.mapM_cons, StateT.run_bind, hfirst, ok_bind, run_draw,
      StateT.run_bind, hrest]
    rfl

/-- Names drawn one after another: one for each base, different from each other and from the names
taken before, and taken after. -/
structure DrawnAll (bases taken names taken' : List String) : Prop where
  valid : List.Forall₂ (fun base name => isValid base → isValid name) bases names
  nodup : names.Nodup
  free : ∀ name ∈ names, name ∉ taken
  marked : taken'.toFinset = names.toFinset ∪ taken.toFinset

theorem drawnAll (bases taken : List String) :
    DrawnAll bases taken ((bases.mapM draw).run taken).1 ((bases.mapM draw).run taken).2 := by
  have hdraws := Draws.mapM (g := fun name => [name])
    (P := fun base name => isValid base → isValid name) Draws.draw bases
  obtain ⟨names, ⟨hnames, hvalid⟩, hnodup, hfree, hstable⟩ := hdraws taken
  rw [List.flatMap_singleton'] at hnames
  subst hnames
  obtain ⟨-, hmem⟩ := hstable taken (List.Subset.refl _) hfree
  refine ⟨hvalid, hnodup, hfree, ?_⟩
  ext name
  rw [List.mem_toFinset, Finset.mem_union, List.mem_toFinset, List.mem_toFinset]
  exact hmem name

/-- While the names taken can be counted in a word, the search ends with the base if it is free and
else with the numbered name of least number that is free, and marks that name. Names drawn by one
search after another differ from each other and from those taken before. -/
theorem draw_least (hsize : taken.toFinset.card < 2 ^ 31) :
    (∀ base, ∃ name taken', (searchDraw base).run taken = .ok (name, taken') ∧
      (draw base).run taken = (name, taken') ∧
      (base ∉ taken → name = base) ∧
      (base ∈ taken → ∃ n, IsLeast {n | numbered base n ∉ taken} n ∧ name = numbered base n) ∧
      name ∉ taken ∧ taken'.toFinset = insert name taken.toFinset ∧
      (isValid base → isValid name)) ∧
    ∀ bases, ∃ names taken', (bases.mapM draw).run taken = (names, taken') ∧
      DrawnAll bases taken names taken' ∧
      (taken.toFinset.card + bases.length ≤ 2 ^ 31 →
        (bases.mapM searchDraw).run taken = .ok (names, taken')) := by
  constructor
  · intro base
    refine ⟨_, _, searchDraw_eq_draw base taken hsize, rfl, fun hfree => if_neg hfree, fun htaken => ?_,
      (fresh_cases base taken).2, List.toFinset_cons, fun h => isValid_fresh h taken⟩
    obtain ⟨n, hn, hfree, hleast⟩ := fresh_of_mem htaken
    refine ⟨n, ⟨hfree, fun k hk => ?_⟩, hn⟩
    exact Nat.le_of_not_lt fun hlt => hk (hleast k hlt)
  · intro bases
    exact ⟨_, _, rfl, drawnAll bases taken, searchDraws_eq_draws bases taken⟩

/-- A base with a taken numbered name, which is the base of another. -/
theorem draw_least_dst :
    ["dst", "dst_0", "dst_0_0"].toFinset.card < 2 ^ 31 ∧
      (searchDraw "dst").run ["dst", "dst_0", "dst_0_0"] =
        .ok ("dst_1", ["dst_1", "dst", "dst_0", "dst_0_0"]) ∧
      ∃ names taken', (["dst", "dst_0", "dst"].mapM searchDraw).run ["dst", "dst_0", "dst_0_0"] =
        .ok (names, taken') ∧ names.Nodup := by
  have hcard := List.toFinset_card_le ["dst", "dst_0", "dst_0_0"]
  have hsize : ["dst", "dst_0", "dst_0_0"].toFinset.card < 2 ^ 31 :=
    lt_of_le_of_lt hcard (by decide)
  have hone : IsLeast {n | numbered "dst" n ∉ ["dst", "dst_0", "dst_0_0"]} 1 := by
    refine ⟨by decide, fun k hk => Nat.one_le_iff_ne_zero.2 ?_⟩
    rintro rfl
    exact absurd hk (by decide)
  obtain ⟨name, taken', hsearch, hdraw, -, hleast, -⟩ := (draw_least hsize).1 "dst"
  obtain ⟨n, hn, hname⟩ := hleast (by decide)
  obtain rfl := hn.unique hone
  have hmarked : taken' = name :: ["dst", "dst_0", "dst_0_0"] := by
    obtain ⟨rfl, rfl⟩ := Prod.mk.inj hdraw
    rfl
  obtain ⟨names, taken'', -, hdrawn, hsearches⟩ := (draw_least hsize).2 ["dst", "dst_0", "dst"]
  refine ⟨hsize, ?_, names, taken'', hsearches ?_, hdrawn.nodup⟩
  · rw [hsearch, hmarked, hname]
    rfl
  · exact le_trans (Nat.add_le_add_right hcard _) (by decide)

end GridKernel.Identifier
