import GridKernel.Proofs.HaloMoves

/-! Building a halo exchange. The kernels are built for every surveyed array, and hold one guarded
move for each side of each free axis. -/
namespace GridKernel.Halo

/-- The sides of the free axes. -/
def pairs (xs : List GridAxis) : List (GridAxis × Side) :=
  (xs.filter fun x => !x.cls.isPinned).flatMap fun x => Side.all.map fun side => (x, side)

def maskOf (p : GridAxis × Side) : Scalar := ⟨p.1.names.masks p.2, .int32⟩

/-- The entry of a side in the table of transfers. -/
def IsTransfer (a : GridArray) (slot : String) (xs : List GridAxis) (p : GridAxis × Side)
    (q : Dimension × Side × Transfer) : Prop :=
  q.1 = p.1.dim ∧ q.2.1 = p.2 ∧
    transfer a .own slot (xs.map GridAxis.toAxis) p.1.toAxis p.2 = .ok q.2.2

/-- The guarded move of a side. -/
def IsGuarded (a : GridArray) (classes : List AxisClass) (slot : String) (xs : List GridAxis)
    (direction : Direction) (p : GridAxis × Side) (s : Stmt) : Prop :=
  ∃ t c, transfer a .own slot (xs.map GridAxis.toAxis) p.1.toAxis p.2 = .ok t ∧
    move a classes t direction = .ok c ∧ s = .when (.scalar (maskOf p)) c

def Exchange.kernel (e : Exchange) : Direction → Kernel
  | .pack => e.pack
  | .unpack => e.unpack

/-- What the parts of an exchange are built from. -/
structure Built (a : GridArray) (classes : List AxisClass) (slot : String) (xs : List GridAxis)
    (e : Exchange) : Prop where
  buffers : List.Forall₂ (IsTransfer a slot xs) (pairs xs) e.buffers
  masks : e.masks = (pairs xs).map fun p => (p.1.dim, p.2, maskOf p)
  body : ∀ direction, ∃ moves,
    (e.kernel direction).body =
      .block ((a :: e.buffers.map fun q => q.2.2.buffer).map .view ++ moves) ∧
    List.Forall₂ (IsGuarded a classes slot xs direction) (pairs xs) moves

theorem exchanged_eq (xs : List GridAxis) :
    exchanged (xs.map GridAxis.toAxis) = (pairs xs).map fun p => (p.1.toAxis, p.2) := by
  rw [exchanged, pairs, List.filter_map, List.flatMap_map, List.map_flatMap]
  rfl

variable {a : GridArray} {classes : List AxisClass} {pins : Pins} {slot : String}
  {xs : List GridAxis} {e : Exchange}

/-- The body of a kernel of an exchange. -/
theorem body_of_kernel {direction : Direction} {buffers : BySide Transfer} {k : Kernel}
    (hbuffers : List.Forall₂ (IsTransfer a slot xs) (pairs xs) buffers)
    (hk : kernel a classes buffers ((pairs xs).map fun p => (p.1.dim, p.2, maskOf p)) direction =
      .ok k) :
    ∃ moves, k.body = .block ((a :: buffers.map fun q => q.2.2.buffer).map .view ++ moves) ∧
      List.Forall₂ (IsGuarded a classes slot xs direction) (pairs xs) moves := by
  unfold kernel at hk
  obtain ⟨moves, hmoves, hk⟩ := bind_eq_ok.1 hk
  obtain ⟨ps, -, hk⟩ := bind_eq_ok.1 hk
  obtain rfl := Except.ok.inj hk
  refine ⟨moves, ?_, ?_⟩
  · rw [List.map_cons, List.map_map]
    rfl
  · have hzip := forall₂_zip_map (fun p => (p.1.dim, p.2, maskOf p)) hbuffers
    refine (forall₂_trans hzip (mapM_eq_ok.1 hmoves)).imp ?_
    rintro p s ⟨⟨q, mask⟩, ⟨⟨-, -, htransfer⟩, rfl⟩, hs⟩
    obtain ⟨c, hc, hs⟩ := bind_eq_ok.1 hs
    exact ⟨q.2.2, c, htransfer, hc, (Except.ok.inj hs).symm⟩

theorem masks_eq (xs : List GridAxis) :
    masks (xs.map GridAxis.toAxis) = (pairs xs).map fun p => (p.1.dim, p.2, maskOf p) := by
  rw [masks, exchanged_eq, List.map_map]
  rfl

theorem transfers_eq_ok {buffers : BySide Transfer} :
    transfers a .own slot (xs.map GridAxis.toAxis) = .ok buffers ↔
      List.Forall₂ (IsTransfer a slot xs) (pairs xs) buffers := by
  rw [transfers, exchanged_eq, mapM_eq_ok, List.forall₂_map_left_iff]
  have hentry : ∀ (p : GridAxis × Side) (q : Dimension × Side × Transfer),
      (do return (p.1.dim, p.2, ← transfer a .own slot (xs.map GridAxis.toAxis) p.1.toAxis p.2) :
        Result (Dimension × Side × Transfer)) = .ok q ↔ IsTransfer a slot xs p q := by
    rintro p ⟨d, side, t⟩
    rw [bind_eq_ok, IsTransfer]
    constructor
    · rintro ⟨t', ht', h⟩
      obtain ⟨rfl, rfl, rfl⟩ := by simpa using h
      exact ⟨rfl, rfl, ht'⟩
    · rintro ⟨rfl, rfl, ht⟩
      exact ⟨t, ht, rfl⟩
  exact ⟨fun h => h.imp fun p q => (hentry p q).1, fun h => h.imp fun p q => (hentry p q).2⟩

theorem built (hclasses : splitAxes a.dims pins = .ok classes)
    (haxes : axes a classes = (slot, xs.map GridAxis.toAxis))
    (he : exchange a pins (some .own) = .ok e) : Built a classes slot xs e := by
  unfold exchange at he
  rw [hclasses, ok_bind, haxes] at he
  simp only [Option.getD_some, masks_eq] at he
  obtain ⟨buffers, hbuffers, he⟩ := bind_eq_ok.1 he
  obtain ⟨pack, hpack, he⟩ := bind_eq_ok.1 he
  obtain ⟨unpack, hunpack, he⟩ := bind_eq_ok.1 he
  obtain rfl := Except.ok.inj he
  have hbuffers := transfers_eq_ok.1 hbuffers
  refine ⟨hbuffers, rfl, fun direction => ?_⟩
  cases direction with
  | pack => exact body_of_kernel hbuffers hpack
  | unpack => exact body_of_kernel hbuffers hunpack

theorem mem_pairs {p : GridAxis × Side} : p ∈ pairs xs ↔ p.1 ∈ xs ∧ p.1.cls.isPinned = false := by
  rw [pairs, mem_sided, Bool.not_eq_true']

theorem map_pairs_sublist (xs : List GridAxis) (f : GridAxis → Side → String) :
    ((pairs xs).map fun p => f p.1 p.2).Sublist (xs.flatMap fun x => sides (f x)) :=
  map_sided_sublist f

/-- The names of the buffers and masks of an exchange differ. -/
theorem Surveyed.transfer_names (h : Surveyed a classes slot xs) :
    (((pairs xs).map fun p => p.1.names.buffers p.2) ++
      (pairs xs).map fun p => (maskOf p).name).Nodup := by
  have hnodup := (List.nodup_cons.1 h.named.nodup).2
  rw [List.flatMap_map, List.flatMap_map] at hnodup
  have hsides := (List.nodup_append.1 hnodup).2.1
  exact ((map_pairs_sublist xs fun x => x.names.buffers).append
    (map_pairs_sublist xs fun x => x.names.masks)).nodup hsides

theorem Surveyed.transfer_ne (h : Surveyed a classes slot xs) {p : GridAxis × Side}
    (hp : p ∈ pairs xs) : a.name ≠ p.1.names.buffers p.2 ∧ a.name ≠ (maskOf p).name := by
  have hfresh : ∀ n, n ∈ drawn slot (xs.map GridAxis.toAxis) → a.name ≠ n := by
    rintro n hn rfl
    exact h.named.fresh _ hn (by simp [GridArray.namesInUse])
  have hsides := map_pairs_sublist xs fun x => x.names.buffers
  have hmasks := map_pairs_sublist xs fun x => x.names.masks
  constructor
  · apply hfresh
    simp only [drawn, List.mem_cons, List.mem_append, List.flatMap_map]
    exact .inr (.inr (.inl (hsides.subset (List.mem_map_of_mem hp))))
  · apply hfresh
    simp only [drawn, List.mem_cons, List.mem_append, List.flatMap_map]
    exact .inr (.inr (.inr (hmasks.subset (List.mem_map_of_mem hp))))

variable {R : Type} [Arithmetic R] [ExactIntegers R] {m : Machine R}

/-- The entities that an exchange refers to. -/
def entities (a : GridArray) (xs : List GridAxis) (buffers : BySide Transfer) : Entities where
  arrays := a :: buffers.map fun q => q.2.2.buffer
  scalars := (pairs xs).map maskOf

theorem names_of_buffers (h : Surveyed a classes slot xs) (hm : Measures m xs)
    {buffers : BySide Transfer}
    (hbuffers : transfers a .own slot (xs.map GridAxis.toAxis) = .ok buffers) :
    buffers.map (fun q => q.2.2.buffer.name) = (pairs xs).map fun p => p.1.names.buffers p.2 := by
  have hrel := transfers_eq_ok.1 hbuffers
  refine (map_eq_map_iff_forall₂.2 ?_).symm
  rw [List.forall₂_iff_zip] at hrel ⊢
  refine ⟨hrel.1, fun {p q} hpq => ?_⟩
  obtain ⟨-, -, ht⟩ := hrel.2 hpq
  have hp := (mem_pairs.1 (List.of_mem_zip hpq).1).1
  obtain ⟨receive, send, inner, -, -, -, ht'⟩ := exists_transfer h hm hp p.2
  rw [Except.ok.inj (ht.symm.trans ht')]
  rfl

theorem apart (h : Surveyed a classes slot xs) (hm : Measures m xs) {buffers : BySide Transfer}
    (hbuffers : transfers a .own slot (xs.map GridAxis.toAxis) = .ok buffers) :
    (entities a xs buffers).Apart := by
  have hnames := names_of_buffers h hm hbuffers
  obtain ⟨hbuffersNodup, -, hdisjoint⟩ := List.nodup_append.1 h.transfer_names
  have hmem : ∀ q ∈ buffers, ∃ p ∈ pairs xs, p.1.names.buffers p.2 = q.2.2.buffer.name := by
    intro q hq
    have hname : q.2.2.buffer.name ∈ buffers.map (fun q => q.2.2.buffer.name) :=
      List.mem_map_of_mem hq
    rw [hnames] at hname
    exact List.mem_map.1 hname
  constructor
  · intro b hb c hc hname
    simp only [entities, List.mem_cons, List.mem_map] at hb hc
    rcases hb with rfl | ⟨q, hq, rfl⟩ <;> rcases hc with rfl | ⟨q', hq', rfl⟩
    · exact GridArray.same_self _
    · obtain ⟨p, hp, hpq⟩ := hmem q' hq'
      exact absurd (hname.trans hpq.symm) (h.transfer_ne hp).1
    · obtain ⟨p, hp, hpq⟩ := hmem q hq
      exact absurd (hname.symm.trans hpq.symm) (h.transfer_ne hp).1
    · rw [← hnames] at hbuffersNodup
      rw [List.inj_on_of_nodup_map hbuffersNodup hq hq' hname]
      exact GridArray.same_self _
  · intro s hs t ht hname
    obtain ⟨p, -, rfl⟩ := List.mem_map.1 hs
    obtain ⟨q, -, rfl⟩ := List.mem_map.1 ht
    exact congrArg (Scalar.mk · .int32) hname
  · intro b hb s hs
    obtain ⟨p, hp, rfl⟩ := List.mem_map.1 hs
    simp only [entities, List.mem_cons, List.mem_map] at hb
    rcases hb with rfl | ⟨q, hq, rfl⟩
    · exact (h.transfer_ne hp).2
    · obtain ⟨p', hp', hname⟩ := hmem q hq
      rw [← hname]
      exact hdisjoint _ (List.mem_map_of_mem hp') _ (List.mem_map_of_mem hp)

omit [ExactIntegers R] in
/-- The loops of a move refer to the array and the buffer only. -/
theorem knowsAll_moveOf {u : Entities} {t : Transfer} {direction : Direction} {x : GridAxis}
    {side : Side} {lanes : List Lane} (ha : a ∈ u.arrays) (ht : t.buffer ∈ u.arrays)
    (hlanes : List.Forall₂ (Follows m x direction side) xs lanes) :
    u.KnowsAll (moveOf a t direction lanes) := by
  have hnear : ∀ e ∈ .int direction.slot :: lanes.map Lane.near, ∀ n ∈ e.nodes, u.Knows n := by
    intro e he
    rcases List.mem_cons.1 he with rfl | he
    · exact Expr.Plain.int _ u
    · obtain ⟨l, hl, rfl⟩ := List.mem_map.1 he
      obtain ⟨y, -, hy⟩ := forall₂_mem_right hlanes hl
      exact hy.near_plain u
  have hfar : ∀ e ∈ lanes.map Lane.far, ∀ n ∈ e.nodes, u.Knows n := by
    intro e he
    obtain ⟨l, hl, rfl⟩ := List.mem_map.1 he
    obtain ⟨y, -, hy⟩ := forall₂_mem_right hlanes hl
    exact hy.far_plain u
  have hheads : ∀ s, ∀ head ∈ Lane.heads lanes, ∀ e ∈ (Stmt.loop head s).exprs,
      ∀ n ∈ e.nodes, u.Knows n := by
    intro s head hhead e he
    obtain ⟨l, hl, hloop⟩ := List.mem_filterMap.1 hhead
    obtain ⟨y, -, hy⟩ := forall₂_mem_right hlanes (List.mem_reverse.1 hl)
    exact hy.loop_plain head hloop s e he u
  unfold moveOf
  cases direction with
  | pack => exact (Entities.KnowsAll.assign_access ha ht hfar hnear).nest (hheads _)
  | unpack => exact (Entities.KnowsAll.assign_access ht ha hnear hfar).nest (hheads _)

theorem exists_kernel (h : Surveyed a classes slot xs) (hm : Measures m xs)
    {buffers : BySide Transfer}
    (hbuffers : transfers a .own slot (xs.map GridAxis.toAxis) = .ok buffers)
    (direction : Direction) :
    ∃ k, kernel a classes buffers (masks (xs.map GridAxis.toAxis)) direction = .ok k := by
  have hrel := transfers_eq_ok.1 hbuffers
  have hzip := forall₂_zip_map (fun p => (p.1.dim, p.2, maskOf p)) hrel
  have hguarded : ∀ z ∈ buffers.zip ((pairs xs).map fun p => (p.1.dim, p.2, maskOf p)), ∃ s,
      (do return Stmt.when (.scalar z.2.2.2) (← move a classes z.1.2.2 direction) : Result Stmt) =
        .ok s ∧ (entities a xs buffers).KnowsAll s := by
    intro z hz
    obtain ⟨p, hp, ⟨-, -, ht⟩, hmask⟩ := forall₂_mem_right hzip hz
    obtain ⟨receive, send, inner, hreceive, hsend, hinner, ht'⟩ :=
      exists_transfer h hm (mem_pairs.1 hp).1 p.2
    have htransfer := Except.ok.inj (ht.symm.trans ht')
    obtain ⟨lanes, hmove, hlanes⟩ :=
      exists_move h hm (mem_pairs.1 hp).1 hreceive hsend hinner direction
    rw [← htransfer] at hmove
    refine ⟨_, by rw [hmove]; rfl, .when ?_ (knowsAll_moveOf (by simp [entities]) ?_ hlanes)⟩
    · intro n hn
      obtain rfl := List.mem_singleton.1 hn
      rw [hmask]
      exact List.mem_map_of_mem hp
    · exact List.mem_cons_of_mem _ (List.mem_map_of_mem (List.of_mem_zip hz).1)
  obtain ⟨moves, hmoves⟩ := exists_forall₂ hguarded
  have hmapM := mapM_eq_ok.2 (hmoves.imp fun _ _ hs => hs.1)
  have hknows : (entities a xs buffers).KnowsAll
      (.block (.view a :: buffers.map (fun q => .view q.2.2.buffer) ++ moves)) := by
    apply Entities.KnowsAll.block
    intro s hs
    rcases List.mem_append.1 hs with hs | hs
    · rcases List.mem_cons.1 hs with rfl | hs
      · exact .view (by simp [entities])
      · obtain ⟨q, hq, rfl⟩ := List.mem_map.1 hs
        exact .view (List.mem_cons_of_mem _ (List.mem_map_of_mem hq))
    · obtain ⟨z, -, hz⟩ := forall₂_mem_right hmoves hs
      exact hz.2
  obtain ⟨ps, hps⟩ := Entities.parameters (apart h hm hbuffers) hknows
  unfold kernel
  rw [masks_eq]
  refine ⟨_, bind_eq_ok.2 ⟨moves, hmapM, bind_eq_ok.2 ⟨ps, hps, rfl⟩⟩⟩

/-- The exchange of a surveyed array is built. -/
theorem exists_exchange (h : Surveyed a classes slot xs) (hm : Measures m xs)
    (hclasses : splitAxes a.dims pins = .ok classes)
    (haxes : axes a classes = (slot, xs.map GridAxis.toAxis)) :
    ∃ e, exchange a pins (some .own) = .ok e := by
  have htransfers : ∀ p ∈ pairs xs, ∃ q, IsTransfer a slot xs p q := by
    intro p hp
    obtain ⟨receive, send, inner, -, -, -, ht⟩ := exists_transfer h hm (mem_pairs.1 hp).1 p.2
    exact ⟨(p.1.dim, p.2, _), rfl, rfl, ht⟩
  obtain ⟨qs, hqs⟩ := exists_forall₂ htransfers
  have hbuffers := transfers_eq_ok.2 hqs
  obtain ⟨pack, hpack⟩ := exists_kernel h hm hbuffers .pack
  obtain ⟨unpack, hunpack⟩ := exists_kernel h hm hbuffers .unpack
  unfold exchange
  rw [hclasses, ok_bind, haxes]
  exact ⟨_, bind_eq_ok.2 ⟨qs, hbuffers, bind_eq_ok.2 ⟨pack, hpack,
    bind_eq_ok.2 ⟨unpack, hunpack, rfl⟩⟩⟩⟩

end GridKernel.Halo
