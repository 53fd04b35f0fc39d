import Mathlib.Data.List.Sections
import GridKernel.Proofs.Loops

/-! Nests of loops. A nest runs the statement inside it once for each choice of a trip of every
loop; the choices come with the trips of the innermost loop first. -/
namespace GridKernel.Machine

variable {R : Type}

/-- On entering a trip its bindings are in force next to the earlier ones of other names. -/
theorem Binds.bindAll {m : Machine R} {bs : Bindings} {choice : List Bindings}
    (h : m.Binds choice.flatten) (hnames : (bs.map Prod.fst).Nodup)
    (hother : ∀ b ∈ choice.flatten, b.1 ∉ bs.map Prod.fst) :
    (m.bindAll bs).Binds (bs :: choice).flatten := by
  intro b hb
  rw [List.flatten_cons, List.mem_append] at hb
  rcases hb with hb | hb
  · exact binds_bindAll hnames b hb
  · rw [indices_bindAll_of_notMem (hother b hb)]
    exact h b hb

variable [Arithmetic R]

/-- What a loop does in every machine that a property holds of: it runs its body for the trips. -/
def Makes (P : Machine R → Prop) (head : LoopHead) (trips : List Bindings) : Prop :=
  (∀ bs ∈ trips, bs.map Prod.fst = head.bound) ∧
    ∀ m body, P m → runLoop head body m =
      Outcome.sequence (fun bs m => body (m.bindAll bs)) trips m

theorem names_of_mem_sections {heads : List LoopHead} {trips : List (List Bindings)}
    (h : List.Forall₂ (fun head ts => ∀ bs ∈ ts, bs.map Prod.fst = head.bound) heads trips)
    {choice : List Bindings} (hc : choice ∈ trips.sections) :
    choice.flatten.map Prod.fst = heads.flatMap LoopHead.bound := by
  rw [List.mem_sections] at hc
  induction h generalizing choice with
  | nil =>
    cases hc
    rfl
  | cons hhead _ ih =>
    cases hc with
    | cons hbs hrest => simp [hhead _ hbs, ih hrest]

/-- A statement keeps the bindings that no loop in it carries. -/
theorem Binds.run {m : Machine R} {bs : Bindings} {s : Stmt} (h : m.Binds bs)
    (hloops : ∀ b ∈ bs, ∀ head ∈ s.loops, b.1 ∉ head.bound) : (run s m).machine.Binds bs := by
  intro b hb
  rw [run_indices (hloops b hb)]
  exact h b hb

/-- A property indexed by the choices of trips treated so far holds at the end of a nest, if the
statement inside keeps it on every choice. -/
theorem ends_nest {I : Machine R → Prop} {F : Fault → Machine R → Prop} {heads : List LoopHead}
    {trips : List (List Bindings)} {cell : Stmt} (P : List (List Bindings) → Machine R → Prop)
    (hloop : List.Forall₂ (Makes I) heads trips) (hI : ∀ before m, P before m → I m)
    (hnames : (heads.flatMap LoopHead.bound).Nodup)
    (hinner : ∀ name ∈ heads.flatMap LoopHead.bound, ∀ head ∈ cell.loops, name ∉ head.bound)
    (hbind : ∀ before m, ∀ name ∈ heads.flatMap LoopHead.bound, ∀ i, P before m →
      P before (m.bindIndex name i))
    (hcell : ∀ before choice after, trips.sections = before ++ choice :: after →
      ∀ m, P before m → m.Binds choice.flatten →
        (run cell m).Ends (P (before ++ [choice])) F)
    {m : Machine R} (h : P [] m) : (run (cell.nest heads) m).Ends (P trips.sections) F := by
  induction hloop generalizing cell P m with
  | nil => exact hcell [] [] [] rfl m h (fun b hb => absurd hb List.not_mem_nil)
  | @cons head ts heads tss hhead htail ih =>
    simp only [List.flatMap_cons, List.nodup_append, List.mem_append] at hnames hinner hbind
    obtain ⟨hheadNames, htailNames, hdisjoint⟩ := hnames
    have htailForall : List.Forall₂ (fun head ts => ∀ bs ∈ ts, bs.map Prod.fst = head.bound)
        heads tss := htail.imp fun _ _ hmakes => hmakes.1
    -- the outer loops see one pass of the innermost loop as a single step
    let passes (before : List (List Bindings)) := before.flatMap fun choice => ts.map (· :: choice)
    change (run ((Stmt.loop head cell).nest heads) m).Ends _ _
    refine ih (fun before => P (passes before))
      (fun before m hm => hI _ m hm) htailNames ?_ ?_ ?_ h
    · intro name hname inner hinnerHead
      rw [Stmt.loops_loop] at hinnerHead
      rcases List.mem_cons.1 hinnerHead with rfl | hin
      · exact fun hbound => hdisjoint name hbound name hname rfl
      · exact hinner name (.inr hname) inner hin
    · exact fun before m name hname i hm => hbind _ m name (.inr hname) i hm
    · intro before choice after hsections m hm hbinds
      have hchoice : choice ∈ tss.sections := by simp [hsections]
      have hchoiceName : ∀ b ∈ choice.flatten, b.1 ∈ heads.flatMap LoopHead.bound := fun b hb =>
        names_of_mem_sections htailForall hchoice ▸ List.mem_map_of_mem hb
      have hrun : run (.loop head cell) m =
          Outcome.sequence (fun bs m => run cell (m.bindAll bs)) ts m :=
        hhead.2 m (run cell) (hI _ m hm)
      rw [hrun]
      have hpass : (Outcome.sequence (fun bs m => run cell (m.bindAll bs)) ts m).Ends
          (fun m => P (passes before ++ ts.map (· :: choice)) m ∧ m.Binds choice.flatten) F := by
        refine Outcome.ends_sequence
          (fun done m => P (passes before ++ done.map (· :: choice)) m ∧ m.Binds choice.flatten)
          ?_ (by simpa using ⟨hm, hbinds⟩)
        rintro done bs rest hts m ⟨hm, hbinds⟩
        have hbs : bs ∈ ts := by simp [hts]
        have hbsNames := hhead.1 bs hbs
        have hentered : P (passes before ++ done.map (· :: choice)) (m.bindAll bs) := by
          refine bindAll_keeps (fun name hname m i => ?_) hm
          exact hbind _ m name (.inl (hbsNames ▸ hname)) i
        have hall : (m.bindAll bs).Binds (bs :: choice).flatten := by
          apply hbinds.bindAll (hbsNames ▸ hheadNames)
          intro b hb hmem
          exact hdisjoint b.1 (hbsNames ▸ hmem) b.1 (hchoiceName b hb) rfl
        have hcellEnds := hcell (passes before ++ done.map (· :: choice)) (bs :: choice)
          (rest.map (· :: choice) ++ passes after)
          (by simp [List.sections, hsections, hts, passes]) (m.bindAll bs) hentered hall
        have hkept : (run cell (m.bindAll bs)).machine.Binds choice.flatten :=
          Binds.run (fun b hb => hall b (List.mem_append_right _ hb))
            fun b hb => hinner b.1 (.inr (hchoiceName b hb))
        exact (hcellEnds.and hkept).mono fun m hm => by simpa using hm
      exact hpass.mono fun m hm => by simpa [passes] using hm.1

end GridKernel.Machine
