import GridKernel.Proofs.Spans
import GridKernel.Proofs.Nests

/-! Moves of cells. A nest of loops around one assignment between two arrays moves one cell for each
position of the loops; nothing else changes. -/
namespace GridKernel

variable {R : Type}

/-- One axis of a move: the indices of both arrays, the loop over the axis, and the cells that it
covers, counted from zero in the near array and from an origin in the far one. -/
structure Lane extends Span where
  near : Expr
  far : Expr
  loop? : Option LoopHead

namespace Lane

/-- A position has one entry per axis and every entry is within the axis. -/
def Within (lanes : List Lane) (ks : List Nat) : Prop :=
  List.Forall₂ (fun l k => k < l.extent) lanes ks

/-- The loops of a move, the last axis innermost. -/
def heads (lanes : List Lane) : List LoopHead := lanes.reverse.filterMap loop?

/-- The trips of the loops of a move, the last axis first. -/
def trips (lanes : List Lane) : List (List Bindings) :=
  lanes.reverse.filterMap fun l => l.loop?.map fun h => h.trips 0 l.extent

/-- The trips that a position selects, the last axis first. -/
def choice (lanes : List Lane) (ks : List Nat) : List Bindings :=
  (lanes.zip ks).reverse.filterMap fun p => p.1.loop?.map fun h => h.bindings p.2 p.2

/-- The loop over an axis is on a given trip. -/
def On (m : Machine R) (l : Lane) (k : Nat) : Prop :=
  ∀ h, l.loop? = some h → m.Binds (h.bindings k k)

/-- An axis without a loop has one cell, and a loop counts up from zero. -/
def Counts (l : Lane) : Prop :=
  (l.loop? = none → l.extent = 1) ∧ ∀ h, l.loop? = some h → ∃ e, h.bounds = .upTo e

theorem trips_upTo {h : LoopHead} {e : Expr} (hb : h.bounds = .upTo e) (n : Nat) :
    h.trips 0 n = (List.range n).map fun (k : Nat) => h.bindings k k := by
  simp [LoopHead.trips, hb, Bounds.upTo, tripCount]

theorem within_reverse {lanes : List Lane} {ks : List Nat} :
    Within lanes.reverse ks.reverse ↔ Within lanes ks := List.forall₂_reverse_iff

theorem forall₂_mem_trips {lanes : List Lane} (hcounts : ∀ l ∈ lanes, l.Counts)
    {c : List Bindings} :
    List.Forall₂ (· ∈ ·) c (lanes.filterMap fun l => l.loop?.map fun h => h.trips 0 l.extent) ↔
      ∃ ks, Within lanes ks ∧ c = (lanes.zip ks).filterMap fun p =>
        p.1.loop?.map fun h => h.bindings p.2 p.2 := by
  induction lanes generalizing c with
  | nil =>
    simp only [List.filterMap_nil, List.forall₂_nil_right_iff, Within, List.forall₂_nil_left_iff]
    simp
  | cons l lanes ih =>
    have hl := hcounts l (by simp)
    have ih (c) := ih (fun l hl => hcounts l (by simp [hl])) (c := c)
    cases hloop : l.loop? with
    | none =>
      simp only [List.filterMap_cons, hloop, Option.map_none]
      rw [ih c]
      constructor
      · rintro ⟨ks, hks, rfl⟩
        exact ⟨0 :: ks, .cons (by simp [hl.1 hloop]) hks, by simp [hloop]⟩
      · rintro ⟨ks, hks, rfl⟩
        cases hks with
        | cons hk hks => exact ⟨_, hks, by simp [hloop]⟩
    | some h =>
      obtain ⟨e, he⟩ := hl.2 h hloop
      simp only [List.filterMap_cons, hloop, Option.map_some, trips_upTo he]
      constructor
      · rintro (_ | ⟨hb, hc⟩)
        obtain ⟨k, hk, rfl⟩ := List.mem_map.1 hb
        obtain ⟨ks, hks, rfl⟩ := (ih _).1 hc
        exact ⟨k :: ks, .cons (List.mem_range.1 hk) hks, by simp [hloop]⟩
      · rintro ⟨ks, hks, rfl⟩
        cases hks with
        | @cons _ k _ ks hk hks =>
          have hrest := (ih _).2 ⟨ks, hks, rfl⟩
          simp only [List.zip_cons_cons, List.filterMap_cons, hloop, Option.map_some]
          exact .cons (List.mem_map_of_mem (List.mem_range.2 hk)) hrest

theorem choice_reverse {lanes : List Lane} {ks : List Nat} (h : lanes.length = ks.length) :
    choice lanes ks = (lanes.reverse.zip ks.reverse).filterMap fun p =>
      p.1.loop?.map fun h => h.bindings p.2 p.2 := by
  have hzip : (lanes.zip ks).reverse = lanes.reverse.zip ks.reverse := List.reverse_zipWith h
  rw [choice, hzip]

/-- The choices of trips of a move are those that its positions select. -/
theorem mem_sections_trips {lanes : List Lane} (hcounts : ∀ l ∈ lanes, l.Counts)
    {c : List Bindings} :
    c ∈ (trips lanes).sections ↔ ∃ ks, Within lanes ks ∧ c = choice lanes ks := by
  have hcounts : ∀ l ∈ lanes.reverse, l.Counts := by simpa using hcounts
  rw [List.mem_sections, trips, forall₂_mem_trips hcounts]
  constructor
  · rintro ⟨ks, hks, rfl⟩
    have hlength : lanes.length = ks.reverse.length := by simpa using hks.length_eq
    refine ⟨ks.reverse, ?_, ?_⟩
    · rwa [← within_reverse, List.reverse_reverse]
    · rw [choice_reverse hlength, List.reverse_reverse]
  · rintro ⟨ks, hks, rfl⟩
    exact ⟨ks.reverse, within_reverse.2 hks, choice_reverse hks.length_eq⟩

/-- Every loop of a move is on the trip that the position selects. -/
theorem on_of_binds {m : Machine R} {lanes : List Lane} {ks : List Nat}
    (hks : lanes.length = ks.length) (h : m.Binds (choice lanes ks).flatten) :
    List.Forall₂ (On m) lanes ks := by
  rw [List.forall₂_iff_zip]
  refine ⟨hks, fun {l k} hlk head hloop b hb => h b ?_⟩
  rw [List.mem_flatten]
  refine ⟨head.bindings k k, List.mem_filterMap.2 ⟨(l, k), by simpa using hlk, ?_⟩, hb⟩
  simp [hloop]

end Lane

/-- The buffer `c` is the buffer `b` with cells of `a` moved in, each pair a target and a source. -/
structure Buffer.Moved (a b c : Buffer R) (moves : List (List Int64 × List Int64)) : Prop where
  dims : c.dims = b.dims
  full : c.Full
  moved : ∀ p ∈ moves, ∃ x, a.get? p.2 = some x ∧ c.get? p.1 = some x
  kept : ∀ is, is ∉ moves.map Prod.fst → c.get? is = b.get? is

namespace Buffer.Moved

theorem refl (a : Buffer R) {b : Buffer R} (hb : b.Full) : Moved a b b [] :=
  ⟨rfl, hb, fun _ hp => absurd hp List.not_mem_nil, fun _ _ => rfl⟩

/-- One more cell is moved, to a target that no other source was moved to. -/
theorem snoc {a b c c' : Buffer R} {moves : List (List Int64 × List Int64)}
    {tgt src : List Int64} {x : R} (h : Moved a b c moves) (hx : a.get? src = some x)
    (hset : c.set? tgt x = some c') (hsame : ∀ p ∈ moves, p.1 = tgt → p.2 = src) :
    Moved a b c' (moves ++ [(tgt, src)]) := by
  refine ⟨(Buffer.dims_of_set? hset).trans h.dims, h.full.set? hset, ?_, ?_⟩
  · intro p hp
    rw [h.full.get?_set? hset]
    rcases List.mem_append.1 hp with hp | hp
    · by_cases htgt : p.1 = tgt
      · exact ⟨x, by rw [hsame p hp htgt, hx], by rw [if_pos htgt]⟩
      · obtain ⟨y, hy, hcy⟩ := h.moved p hp
        exact ⟨y, hy, by rw [if_neg htgt, hcy]⟩
    · obtain rfl := List.mem_singleton.1 hp
      exact ⟨x, hx, by rw [if_pos rfl]⟩
  · intro is his
    simp only [List.map_append, List.map_cons, List.map_nil, List.mem_append, List.mem_singleton,
      not_or] at his
    rw [h.full.get?_set? hset, if_neg his.2, h.kept is his.1]

end Buffer.Moved

namespace Machine

/-- Two machines have the same scalars and sizes. -/
def Agrees (m m' : Machine R) : Prop := m'.scalars = m.scalars ∧ m'.sizes = m.sizes

/-- The machine `m'` agrees with `m`, and differs from it in one array only. -/
structure Rebinds (m m' : Machine R) (name : String) (c : Buffer R) : Prop where
  agrees : m.Agrees m'
  array : m'.arrays[name]? = some c
  others : ∀ other, other ≠ name → m'.arrays[other]? = m.arrays[other]?

theorem Rebinds.bindIndex {m m' : Machine R} {name key : String} {c : Buffer R} {i : Int64}
    (h : m.Rebinds m' name c) : m.Rebinds (m'.bindIndex key i) name c :=
  ⟨h.agrees, h.array, h.others⟩

theorem Rebinds.bindArray {m m' : Machine R} {name : String} {c : Buffer R}
    (h : m.Rebinds m' name c) (c' : Buffer R) : m.Rebinds (m'.bindArray name c') name c' := by
  refine ⟨h.agrees, by simp, fun other hne => ?_⟩
  rw [arrays_bindArray, if_neg (Ne.symm hne), h.others other hne]

variable [Arithmetic R]

theorem forall₂_makes {P : Machine R → Prop} {lanes : List Lane}
    (hmakes : ∀ l ∈ lanes, ∀ h, l.loop? = some h → Makes P h (h.trips 0 l.extent)) :
    List.Forall₂ (Makes P) (lanes.filterMap Lane.loop?)
      (lanes.filterMap fun l => l.loop?.map fun h => h.trips 0 l.extent) := by
  induction lanes with
  | nil => exact .nil
  | cons l lanes ih =>
    have ih := ih fun l hl => hmakes l (by simp [hl])
    cases hloop : l.loop? with
    | none => simpa [List.filterMap_cons, hloop] using ih
    | some h =>
      have hl := hmakes l (by simp) h hloop
      simpa [List.filterMap_cons, hloop] using ⟨hl, ih⟩

theorem makes_upTo [ExactIntegers R] {m : Machine R} {h : LoopHead} {e : Expr} {n : Nat}
    (hb : h.bounds = .upTo e) (hcount : ∀ d ∈ h.companions, d.CountsTrips)
    (he : ∀ m', m.Agrees m' → m'.Evaluates e n) : Makes m.Agrees h (h.trips 0 n) := by
  constructor
  · intro bs hbs
    rw [Lane.trips_upTo hb] at hbs
    obtain ⟨k, -, rfl⟩ := List.mem_map.1 hbs
    exact h.bindings_names k k
  · intro m' body hm'
    have hlower : m'.Evaluates h.bounds.lower 0 := by
      rw [hb]
      exact Evaluates.int (by decide)
    have hupper : m'.Evaluates h.bounds.upper n := by
      rw [hb]
      exact he m' hm'
    exact runLoop_eq hcount (.inl (by rw [hb]; rfl)) body hlower hupper

theorem run_assign_access {m : Machine R} {A B : GridArray} {ses tes : List Expr}
    {src tgt : List Int64} {a c : Buffer R} (hses : m.evalIndices ses = .ok src)
    (htes : m.evalIndices tes = .ok tgt) (hA : m.arrays[A.name]? = some a)
    (hB : m.arrays[B.name]? = some c) :
    run (.assign (.access B tes) (.access A ses)) m =
      .attempt m (bound (a.get? src) (outside A.name a src)) fun x =>
        .attempt m (bound (c.set? tgt x) (outside B.name c tgt)) fun c' =>
          .done (m.bindArray B.name c') := by
  rw [run, eval, hses]
  simp only [ok_bind, array, hA, hB, bound, store, htes]
  cases a.get? src with
  | none => rfl
  | some x =>
    simp only [Outcome.attempt_ok]
    cases c.set? tgt x <;> rfl

/-- One assignment moves one cell, or stops at a source out of bounds. -/
theorem ends_move {m m' : Machine R} {A B : GridArray} {tes ses : List Expr}
    {src tgt : List Int64} {a b c : Buffer R} {moves : List (List Int64 × List Int64)}
    (ha : a.Full) (hA : m'.arrays[A.name]? = some a) (hm' : m.Rebinds m' B.name c)
    (hmoved : a.Moved b c moves) (hses : m'.evalIndices ses = .ok src)
    (htes : m'.evalIndices tes = .ok tgt) (htgt : Buffer.InBounds b.dims tgt)
    (hsame : ∀ p ∈ moves, p.1 = tgt → p.2 = src) :
    (run (.assign (.access B tes) (.access A ses)) m').Ends
      (fun n => ∃ c', m.Rebinds n B.name c' ∧ a.Moved b c' (moves ++ [(tgt, src)]))
      (fun e _ => ¬ Buffer.InBounds a.dims src ∧ e = .cause (outside A.name a src)) := by
  rw [run_assign_access hses htes hA hm'.array]
  by_cases hin : Buffer.InBounds a.dims src
  · obtain ⟨x, hx⟩ := ha.get? hin
    obtain ⟨c', hc'⟩ := (hmoved.dims.symm ▸ htgt : Buffer.InBounds c.dims _).set? x
    simp only [hx, hc', bound, Outcome.attempt_ok]
    exact ⟨c', hm'.bindArray c', hmoved.snoc hx hc' hsame⟩
  · simp only [Buffer.get?_eq_none hin, bound, refuse, Outcome.attempt_error]
    exact ⟨hin, rfl⟩

/-- A nest around one assignment moves one cell for each position, or stops at a position whose
source is out of bounds. -/
theorem ends_moves {m : Machine R} {lanes : List Lane} {A B : GridArray} {tes ses : List Expr}
    {a b : Buffer R} {tgt src : List Nat → List Int64} (hA : m.arrays[A.name]? = some a)
    (hB : m.arrays[B.name]? = some b) (hAB : A.name ≠ B.name) (ha : a.Full) (hb : b.Full)
    (hcounts : ∀ l ∈ lanes, l.Counts)
    (hmakes : ∀ l ∈ lanes, ∀ h, l.loop? = some h → Makes m.Agrees h (h.trips 0 l.extent))
    (hnames : ((Lane.heads lanes).flatMap LoopHead.bound).Nodup)
    (htes : ∀ m' ks, m.Agrees m' → Lane.Within lanes ks → List.Forall₂ (Lane.On m') lanes ks →
      m'.evalIndices tes = .ok (tgt ks))
    (hses : ∀ m' ks, m.Agrees m' → Lane.Within lanes ks → List.Forall₂ (Lane.On m') lanes ks →
      m'.evalIndices ses = .ok (src ks))
    (hinj : ∀ ks ks', Lane.Within lanes ks → Lane.Within lanes ks' → tgt ks = tgt ks' → ks = ks')
    (htgt : ∀ ks, Lane.Within lanes ks → Buffer.InBounds b.dims (tgt ks)) :
    (run ((Stmt.assign (.access B tes) (.access A ses)).nest (Lane.heads lanes)) m).Ends
      (fun m' => ∃ c moves, m.Rebinds m' B.name c ∧ a.Moved b c moves ∧
        ∀ p, p ∈ moves ↔ ∃ ks, Lane.Within lanes ks ∧ p = (tgt ks, src ks))
      (fun e _ => ∃ ks, Lane.Within lanes ks ∧ ¬ Buffer.InBounds a.dims (src ks) ∧
        e = .cause (outside A.name a (src ks))) := by
  let P (before : List (List Bindings)) (m' : Machine R) : Prop :=
    ∃ c moves, m.Rebinds m' B.name c ∧ a.Moved b c moves ∧ ∀ p, p ∈ moves ↔
      ∃ ks, Lane.Within lanes ks ∧ Lane.choice lanes ks ∈ before ∧ p = (tgt ks, src ks)
  have hstart : P [] m := ⟨b, [], ⟨⟨rfl, rfl⟩, hB, fun _ _ => rfl⟩, .refl a hb, by simp⟩
  have hloops : List.Forall₂ (Makes m.Agrees) (Lane.heads lanes) (Lane.trips lanes) :=
    forall₂_makes fun l hl h hloop => hmakes l (List.mem_reverse.1 hl) h hloop
  refine (ends_nest P hloops ?_ hnames (by simp) ?_ ?_ hstart).mono ?_
  · rintro before m' ⟨c, moves, hm', -, -⟩
    exact hm'.agrees
  · rintro before m' name - i ⟨c, moves, hm', hmoves⟩
    exact ⟨c, moves, hm'.bindIndex, hmoves⟩
  · rintro before choice after hsections m' ⟨c, moves, hm', hmoved, hmem⟩ hbinds
    have hchoice : choice ∈ (Lane.trips lanes).sections := by simp [hsections]
    obtain ⟨ks, hks, rfl⟩ := (Lane.mem_sections_trips hcounts).1 hchoice
    have hon := Lane.on_of_binds hks.length_eq hbinds
    have htgts := htes m' ks hm'.agrees hks hon
    -- a position is determined by the trips that it selects
    have huniq : ∀ ks', Lane.Within lanes ks' → Lane.choice lanes ks' = Lane.choice lanes ks →
        ks' = ks := by
      intro ks' hks' heq
      have hon' := Lane.on_of_binds hks'.length_eq (heq ▸ hbinds)
      have htgts' := htes m' ks' hm'.agrees hks' hon'
      exact hinj ks' ks hks' hks (by simpa [htgts] using htgts'.symm)
    have hA' : m'.arrays[A.name]? = some a := by rw [hm'.others _ hAB, hA]
    have hsame : ∀ p ∈ moves, p.1 = tgt ks → p.2 = src ks := by
      intro p hp htgtp
      obtain ⟨ks', hks', -, rfl⟩ := (hmem p).1 hp
      rw [hinj ks' ks hks' hks htgtp]
    refine (ends_move ha hA' hm' hmoved (hses m' ks hm'.agrees hks hon) htgts (htgt ks hks)
      hsame).imp ?_ ?_
    · rintro n ⟨c', hn, hmoved'⟩
      refine ⟨c', moves ++ [(tgt ks, src ks)], hn, hmoved', fun p => ?_⟩
      rw [List.mem_append, hmem p, List.mem_singleton]
      constructor
      · rintro (⟨ks', hks', hbefore, rfl⟩ | rfl)
        · exact ⟨ks', hks', List.mem_append_left _ hbefore, rfl⟩
        · exact ⟨ks, hks, by simp, rfl⟩
      · rintro ⟨ks', hks', hbefore, rfl⟩
        rcases List.mem_append.1 hbefore with hbefore | hnow
        · exact .inl ⟨ks', hks', hbefore, rfl⟩
        · exact .inr (by rw [huniq ks' hks' (List.mem_singleton.1 hnow)])
    · rintro e n ⟨hout, rfl⟩
      exact ⟨ks, hks, hout, rfl⟩
  · rintro m' ⟨c, moves, hm', hmoved, hmem⟩
    refine ⟨c, moves, hm', hmoved, fun p => (hmem p).trans ?_⟩
    refine exists_congr fun ks => and_congr_right fun hks => and_iff_right ?_
    exact (Lane.mem_sections_trips hcounts).2 ⟨ks, hks, rfl⟩

/-- An axis of a move is run as described in every machine with the scalars and sizes of `m`. -/
structure Valid (m : Machine R) (l : Lane) : Prop where
  counts : l.Counts
  exact : l.Exact
  extent_le : l.extent ≤ 2 ^ 53
  makes : ∀ h, l.loop? = some h → Makes m.Agrees h (h.trips 0 l.extent)
  near : ∀ m' k, m.Agrees m' → k < l.extent → l.On m' k → m'.Evaluates l.near k
  far : ∀ m' k, m.Agrees m' → k < l.extent → l.On m' k → m'.Evaluates l.far (l.origin + k)

variable {m m' : Machine R} {lanes : List Lane} {ks : List Nat}

theorem evalIndices_cons (m : Machine R) (e : Expr) (es : List Expr) :
    m.evalIndices (e :: es) = do return (← m.evalIndex e) :: (← m.evalIndices es) := by
  simp only [evalIndices, evalIndex, bind_assoc]

/-- Indices that count from the origin of a span on every axis have the position in these spans as
their values. -/
theorem evalIndices_position {index : Lane → Expr} {span : Lane → Span}
    (hindex : ∀ l ∈ lanes, ∀ k < l.extent, l.On m' k →
      m'.Evaluates (index l) ((span l).origin + k))
    (hks : Lane.Within lanes ks) (hon : List.Forall₂ (Lane.On m') lanes ks) :
    m'.evalIndices (lanes.map index) = .ok (Span.index (lanes.map span) ks) := by
  induction hks with
  | nil => rfl
  | cons hk _ ih =>
    cases hon with
    | cons hl hon =>
      have hfirst := (hindex _ (by simp) _ hk hl).evalIndex
      have hrest := ih (fun l hl => hindex l (by simp [hl])) hon
      rw [List.map_cons, evalIndices_cons, hfirst, hrest]
      rfl

theorem evalIndices_near (hvalid : ∀ l ∈ lanes, m.Valid l) (hm' : m.Agrees m')
    (hks : Lane.Within lanes ks) (hon : List.Forall₂ (Lane.On m') lanes ks) :
    m'.evalIndices (lanes.map Lane.near) =
      .ok (Span.index (lanes.map fun l => l.fromZero) ks) := by
  refine evalIndices_position (fun l hl k hk hon => ?_) hks hon
  simpa [Span.fromZero] using (hvalid l hl).near m' k hm' hk hon

theorem evalIndices_far (hvalid : ∀ l ∈ lanes, m.Valid l) (hm' : m.Agrees m')
    (hks : Lane.Within lanes ks) (hon : List.Forall₂ (Lane.On m') lanes ks) :
    m'.evalIndices (lanes.map Lane.far) = .ok (Span.index (lanes.map Lane.toSpan) ks) :=
  evalIndices_position (fun l hl k hk hon => (hvalid l hl).far m' k hm' hk hon) hks hon

end Machine
end GridKernel
