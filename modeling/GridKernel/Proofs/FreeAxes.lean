import GridKernel.Proofs.GatherSignature

/-! Free axes that are named. A gather whose free axes are named is the gather of its pins when the
names are those of the axes without a pin. Otherwise it is refused: for a pin of no axis, then for
the least name of no axis, then for the first axis that is in both sets or in neither. -/
namespace GridKernel

theorem leastName_eq_some {ns : List String} {n : String} (h : leastName ns = some n) :
    n ∈ ns ∧ ∀ m ∈ ns, n ≤ m := by
  induction ns generalizing n with
  | nil => cases h
  | cons k ns ih =>
    rw [leastName] at h
    cases hleast : leastName ns with
    | none =>
      obtain rfl := Pins.leastName_eq_none.1 hleast
      obtain rfl : k = n := by simpa [hleast] using h
      simp
    | some l =>
      obtain ⟨hl, hle⟩ := ih hleast
      simp only [hleast, Option.some.injEq] at h
      by_cases hlt : l < k
      · rw [if_pos hlt] at h
        subst h
        refine ⟨List.mem_cons_of_mem _ hl, fun m hm => ?_⟩
        rcases List.mem_cons.1 hm with rfl | hm
        · exact Std.le_of_lt hlt
        · exact hle m hm
      · rw [if_neg hlt] at h
        subst h
        refine ⟨List.mem_cons_self, fun m hm => ?_⟩
        rcases List.mem_cons.1 hm with rfl | hm
        · exact String.le_refl _
        · exact String.le_trans (String.not_lt.1 hlt) (hle m hm)

/-- The least name of no axis is determined. -/
theorem unknownName?_eq_some_iff {dims : List Dimension} {names : List String} {n : String} :
    unknownName? dims names = some n ↔ (n ∈ names ∧ n ∉ dims.map Dimension.name) ∧
      ∀ m ∈ names, m ∉ dims.map Dimension.name → n ≤ m := by
  have hmem : ∀ m, m ∈ names.filter (fun k => !(dims.map Dimension.name).contains k) ↔
      m ∈ names ∧ m ∉ dims.map Dimension.name := fun m => by
    rw [List.mem_filter, Bool.not_eq_true', List.contains_eq_mem, decide_eq_false_iff_not]
  have hleast : ∀ m, unknownName? dims names = some m →
      (m ∈ names ∧ m ∉ dims.map Dimension.name) ∧
        ∀ k ∈ names, k ∉ dims.map Dimension.name → m ≤ k := by
    intro m hm
    obtain ⟨hm, hle⟩ := leastName_eq_some hm
    exact ⟨(hmem m).1 hm, fun k hk hforeign => hle k ((hmem k).2 ⟨hk, hforeign⟩)⟩
  constructor
  · exact hleast n
  · rintro ⟨hn, hle⟩
    cases hunknown : unknownName? dims names with
    | none =>
      have hnone := (hmem n).2 hn
      rw [Pins.leastName_eq_none.1 hunknown] at hnone
      cases hnone
    | some m =>
      obtain ⟨hm, hm_le⟩ := hleast m hunknown
      rw [String.le_antisymm (hm_le n hn.1 hn.2) (hle m hm.1 hm.2)]

namespace Pins

variable {pins : Pins} {dims : List Dimension} {free : List String}

theorem find?_of_key {n : String} (h : n ∈ pins.map Prod.fst) :
    ∃ index, pins.find? n = some index := by
  induction pins with
  | nil => cases h
  | cons p pins ih =>
    rw [find?]
    cases hrest : find? pins n with
    | some index => exact ⟨index, rfl⟩
    | none =>
      rcases List.mem_cons.1 h with heq | hn
      · exact ⟨p.2, by simp [← heq]⟩
      · obtain ⟨index, hindex⟩ := ih hn
        rw [hindex] at hrest
        cases hrest

theorem isPinned_classOf (d : Dimension) :
    (pins.classOf d).isPinned = decide (d.name ∈ pins.map Prod.fst) := by
  unfold classOf
  by_cases hkey : d.name ∈ pins.map Prod.fst
  · obtain ⟨index, hindex⟩ := find?_of_key hkey
    simp [hindex, AxisClass.isPinned, hkey]
  · cases hfind : pins.find? d.name with
    | none => simp [AxisClass.isPinned, hkey]
    | some index => exact absurd (key_of_find? hfind) hkey

/-- Every pin is of an axis. -/
def Known (pins : Pins) (dims : List Dimension) : Prop :=
  ∀ key ∈ pins.map Prod.fst, key ∈ dims.map Dimension.name

/-- The free names are those of the axes without a pin. -/
def Complements (pins : Pins) (dims : List Dimension) (free : List String) : Prop :=
  ∀ n, n ∈ free ↔ n ∈ dims.map Dimension.name ∧ n ∉ pins.map Prod.fst

/-- An axis is pinned or free, and not both. -/
def Separates (pins : Pins) (free : List String) (d : Dimension) : Prop :=
  d.name ∈ free ↔ d.name ∉ pins.map Prod.fst

/-- What is wrong with free names, the least foreign one first and then the first axis that is in
both sets or in neither. -/
inductive Misnamed (pins : Pins) (dims : List Dimension) (free : List String) : Cause → Prop where
  | foreign {n : String} (hfree : n ∈ free) (hforeign : n ∉ dims.map Dimension.name)
      (hleast : ∀ m ∈ free, m ∉ dims.map Dimension.name → n ≤ m) :
      Misnamed pins dims free (.unknownFree n)
  | both {before after : List Dimension} {d : Dimension} (hdims : dims = before ++ d :: after)
      (hknown : ∀ n ∈ free, n ∈ dims.map Dimension.name)
      (hbefore : ∀ c ∈ before, pins.Separates free c)
      (hfree : d.name ∈ free) (hpinned : d.name ∈ pins.map Prod.fst) :
      Misnamed pins dims free (.pinnedAndFree d.name)
  | neither {before after : List Dimension} {d : Dimension} (hdims : dims = before ++ d :: after)
      (hknown : ∀ n ∈ free, n ∈ dims.map Dimension.name)
      (hbefore : ∀ c ∈ before, pins.Separates free c)
      (hfree : d.name ∉ free) (hpinned : d.name ∉ pins.map Prod.fst) :
      Misnamed pins dims free (.neitherPinnedNorFree d.name)

theorem complements_iff : pins.Complements dims free ↔
    (∀ n ∈ free, n ∈ dims.map Dimension.name) ∧ ∀ d ∈ dims, pins.Separates free d := by
  constructor
  · intro h
    refine ⟨fun n hn => ((h n).1 hn).1, fun d hd => ?_⟩
    have hname : d.name ∈ dims.map Dimension.name := List.mem_map_of_mem hd
    exact ⟨fun hfree => ((h _).1 hfree).2, fun hpin => (h _).2 ⟨hname, hpin⟩⟩
  · rintro ⟨hknown, hseparates⟩ n
    have hof : n ∈ dims.map Dimension.name → (n ∈ free ↔ n ∉ pins.map Prod.fst) := by
      intro hn
      obtain ⟨d, hd, rfl⟩ := List.mem_map.1 hn
      exact hseparates d hd
    constructor
    · exact fun hn => ⟨hknown n hn, (hof (hknown n hn)).1 hn⟩
    · rintro ⟨hn, hpin⟩
      exact (hof hn).2 hpin

theorem Misnamed.not_complements {c : Cause} (h : pins.Misnamed dims free c) :
    ¬ pins.Complements dims free := by
  rw [complements_iff]
  rintro ⟨hknown, hseparates⟩
  cases h with
  | foreign hfree hforeign => exact hforeign (hknown _ hfree)
  | both hdims _ _ hfree hpinned => exact (hseparates _ (by simp [hdims])).1 hfree hpinned
  | neither hdims _ _ hfree hpinned => exact hfree ((hseparates _ (by simp [hdims])).2 hpinned)

/-- Free names that are not those of the axes without a pin have something wrong. -/
theorem complements_or_misnamed :
    pins.Complements dims free ∨ ∃ c, pins.Misnamed dims free c := by
  cases hunknown : unknownName? dims free with
  | some n =>
    obtain ⟨⟨hfree, hforeign⟩, hleast⟩ := unknownName?_eq_some_iff.1 hunknown
    exact .inr ⟨_, .foreign hfree hforeign hleast⟩
  | none =>
    have hknown := unknownName?_eq_none_iff.1 hunknown
    let mixed (d : Dimension) : Bool := decide (d.name ∈ free ↔ d.name ∈ pins.map Prod.fst)
    have hmixed : ∀ d, mixed d = false ↔ pins.Separates free d := fun d => by
      rw [decide_eq_false_iff_not, Separates]
      tauto
    cases hfind : dims.find? mixed with
    | none =>
      refine .inl (complements_iff.2 ⟨hknown, fun d hd => (hmixed d).1 ?_⟩)
      exact Bool.eq_false_iff.2 (List.find?_eq_none.1 hfind d hd)
    | some d =>
      obtain ⟨hd, before, after, hdims, hbefore⟩ := List.find?_eq_some_iff_append.1 hfind
      have hbefore : ∀ c ∈ before, pins.Separates free c := fun c hc =>
        (hmixed c).1 (by simpa using hbefore c hc)
      have hd := of_decide_eq_true hd
      by_cases hfree : d.name ∈ free
      · exact .inr ⟨_, .both hdims hknown hbefore hfree (hd.1 hfree)⟩
      · exact .inr ⟨_, .neither hdims hknown hbefore hfree (hd.not.1 hfree)⟩

/-- The check of the axes goes over those that are in one set. -/
theorem checkPartition_append {before after : List Dimension}
    (h : ∀ d ∈ before, pins.Separates free d) :
    checkPartition free ((before ++ after).zip ((before ++ after).map pins.classOf)) =
      checkPartition free (after.zip (after.map pins.classOf)) := by
  induction before with
  | nil => rfl
  | cons d before ih =>
    have hd := h d List.mem_cons_self
    have hbefore := ih fun c hc => h c (List.mem_cons_of_mem _ hc)
    rw [List.cons_append, List.map_cons, List.zip_cons_cons, checkPartition, isPinned_classOf,
      List.contains_eq_mem, hbefore]
    by_cases hpinned : d.name ∈ pins.map Prod.fst
    · simp [hpinned, mt hd.1 (not_not.2 hpinned)]
    · simp [hpinned, hd.2 hpinned]

theorem splitAxesWith_of_complements (h : pins.Complements dims free) :
    splitAxesWith dims pins free = splitAxes dims pins := by
  obtain ⟨hknown, hseparates⟩ := complements_iff.1 h
  cases hsplit : splitAxes dims pins with
  | error fault => simp [splitAxesWith, hsplit]
  | ok classes =>
    obtain ⟨-, rfl⟩ := splitAxes_eq_ok_iff.1 hsplit
    have hcheck : checkPartition free ((dims ++ []).zip ((dims ++ []).map pins.classOf)) = .ok () :=
      checkPartition_append hseparates
    rw [List.append_nil] at hcheck
    simp [splitAxesWith, hsplit, unknownName?_eq_none_iff.2 hknown, hcheck]

theorem Misnamed.splitAxesWith_eq {c : Cause} (h : pins.Misnamed dims free c)
    (hknown : pins.Known dims) : splitAxesWith dims pins free = refuse c := by
  have hsplit := splitAxes_eq_ok_iff.2 ⟨hknown, rfl⟩
  cases h with
  | foreign hfree hforeign hleast =>
    have hunknown := unknownName?_eq_some_iff.2 ⟨⟨hfree, hforeign⟩, hleast⟩
    simp [splitAxesWith, hsplit, hunknown, refuse]
  | both hdims hfree_known hbefore hfree hpinned =>
    subst hdims
    simp only [splitAxesWith, hsplit, ok_bind, unknownName?_eq_none_iff.2 hfree_known,
      checkPartition_append hbefore]
    simp [checkPartition, isPinned_classOf, hfree, hpinned, refuse]
  | neither hdims hfree_known hbefore hfree hpinned =>
    subst hdims
    simp only [splitAxesWith, hsplit, ok_bind, unknownName?_eq_none_iff.2 hfree_known,
      checkPartition_append hbefore]
    simp [checkPartition, isPinned_classOf, hfree, hpinned, refuse]

theorem Misnamed.report {c : Cause} (h : pins.Misnamed dims free c) :
    (c.report.code = .unknownDimension ∧ ∃ n ∈ free, n ∉ dims.map Dimension.name) ∨
      (c.report.code = .unclassifiedDimension ∧
        ∃ d ∈ dims, d.name ∈ free ↔ d.name ∈ pins.map Prod.fst) := by
  cases h with
  | foreign hfree hforeign => exact .inl ⟨rfl, _, hfree, hforeign⟩
  | both hdims _ _ hfree hpinned =>
    exact .inr ⟨rfl, _, by simp [hdims], iff_of_true hfree hpinned⟩
  | neither hdims _ _ hfree hpinned =>
    exact .inr ⟨rfl, _, by simp [hdims], iff_of_false hfree hpinned⟩

end Pins

namespace Region

variable {a : GridArray} {pins : Pins} {free : List String}

theorem gatherWith_of_complements (h : pins.Complements a.dims free) :
    gatherWith a pins free = gather a pins := by
  rw [gatherWith, Pins.splitAxesWith_of_complements h, gather]

theorem gatherWith_of_misnamed {c : Cause} (h : pins.Misnamed a.dims free c)
    (hknown : pins.Known a.dims) : gatherWith a pins free = refuse c := by
  rw [gatherWith, h.splitAxesWith_eq hknown]
  rfl

/-- A pin of no axis is refused before the free names are looked at. -/
theorem gatherWith_of_foreign (h : ¬ pins.Known a.dims) :
    ∃ fault, gather a pins = .error fault ∧ gatherWith a pins free = .error fault := by
  cases hsplit : splitAxes a.dims pins with
  | ok classes => exact absurd (Pins.splitAxes_eq_ok_iff.1 hsplit).1 h
  | error fault => simp [gatherWith, gather, splitAxesWith, hsplit]

/-- A gather whose free axes are named is built when the gather of its pins is and the names are
those of the axes without a pin, and it is the same kernel. It is refused as the gather of its pins
is, where these names are right or some pin is of no axis, and otherwise for the least name of no
axis or for the first axis that is in both sets or in neither. -/
theorem gatherWith_classifies (a : GridArray) (pins : Pins) (free : List String) :
    (∀ k, gatherWith a pins free = .ok k ↔
        gather a pins = .ok k ∧ pins.Complements a.dims free) ∧
      (∀ fault, gatherWith a pins free = .error fault ↔
        (gather a pins = .error fault ∧ (¬ pins.Known a.dims ∨ pins.Complements a.dims free)) ∨
          (pins.Known a.dims ∧ ∃ c, pins.Misnamed a.dims free c ∧ fault = .cause c)) ∧
      ∀ c, pins.Misnamed a.dims free c →
        (c.report.code = .unknownDimension ∧ ∃ n ∈ free, n ∉ a.dims.map Dimension.name) ∨
          (c.report.code = .unclassifiedDimension ∧
            ∃ d ∈ a.dims, d.name ∈ free ↔ d.name ∈ pins.map Prod.fst) := by
  have hnamed : pins.Complements a.dims free ∨ ∃ c, pins.Misnamed a.dims free c :=
    Pins.complements_or_misnamed
  refine ⟨fun k => ?_, fun fault => ?_, fun c => Pins.Misnamed.report⟩
  · by_cases hknown : pins.Known a.dims
    · rcases hnamed with h | ⟨c, h⟩
      · rw [gatherWith_of_complements h, and_iff_left h]
      · simp [gatherWith_of_misnamed h hknown, h.not_complements]
    · obtain ⟨fault, hgather, hwith⟩ : ∃ fault, gather a pins = .error fault ∧
        gatherWith a pins free = .error fault := gatherWith_of_foreign hknown
      simp [hgather, hwith]
  · by_cases hknown : pins.Known a.dims
    · rcases hnamed with h | ⟨c, h⟩
      · have hright : ¬ ∃ c, pins.Misnamed a.dims free c ∧ fault = .cause c :=
          fun ⟨c, hc, _⟩ => hc.not_complements h
        simp [gatherWith_of_complements h, h, hright]
      · -- two wrong things would be refused alike, so there is only one
        have hunique : (∃ c, pins.Misnamed a.dims free c ∧ fault = .cause c) ↔
            fault = .cause c := by
          constructor
          · rintro ⟨c', hc', rfl⟩
            have hsame := (gatherWith_of_misnamed hc' hknown).symm.trans
              (gatherWith_of_misnamed h hknown)
            exact Except.error.inj hsame
          · exact fun hfault => ⟨c, h, hfault⟩
        rw [gatherWith_of_misnamed h hknown, hunique]
        simp [h.not_complements, hknown, refuse, eq_comm]
    · obtain ⟨stop, hgather, hwith⟩ : ∃ fault, gather a pins = .error fault ∧
        gatherWith a pins free = .error fault := gatherWith_of_foreign hknown
      simp [hgather, hwith, hknown]

/-- A foreign free name is refused before an axis that is in both sets. -/
example : gatherWith columns [("y", .int 2)] ["y", "z"] = .error (.cause (.unknownFree "z")) := rfl

end Region

end GridKernel
