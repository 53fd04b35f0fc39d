import GridKernel.Proofs.PointStatements
import GridKernel.Proofs.Stepping

/-! Names of slots. A registration claims its name among the registered ones only, so the slots of a
ring share a name with a registered entity exactly when some call asks for it, and then the loop
nest declares and assigns a scalar of that name. -/
namespace GridKernel.March

variable {m : March} {specs : Specs}

/-- A registration of an array, a scalar or a local scalar. -/
inductive Registration where
  | array (name : String) (shape : List UInt64) (element : ElementType) (save : Bool)
  | scalar (name : String) (element : ElementType)
  | localScalar (name : String) (element : ElementType)

namespace Registration

def name : Registration → String
  | array name _ _ _ => name
  | scalar name _ => name
  | localScalar name _ => name

/-- Whether the registered entity is an array that is not saved. -/
def opensRing : Registration → Bool
  | array _ _ _ save => !save
  | _ => false

def apply (m : March) : Registration → Result March
  | array name shape element save => do return (← m.addArray name shape element save).1
  | scalar name element => do return (← m.addScalar name element).1
  | localScalar name element => do return (← m.addLocal name element).1

end Registration

/-- What a registration adds: a name that no registered entity has, and a ring for an array that is
not saved. -/
structure Added (c : Registration) (m m' : March) : Prop where
  fresh : c.name ∉ m.entry.registeredNames
  names : m'.entry.registeredNames.Perm (c.name :: m.entry.registeredNames)
  ring : m'.hasRing = (m.hasRing || c.opensRing)

theorem Registered.add (hm : Registered specs m) {c : Registration} {m' : March}
    (h : c.apply m = .ok m') : Registered specs m' ∧ Added c m m' := by
  cases c with
  | array name shape element save =>
    obtain ⟨⟨m', a⟩, hadd, h⟩ := bind_eq_ok.1 h
    obtain rfl := Except.ok.inj h
    refine ⟨.array hm hadd, ?_⟩
    obtain ⟨rfl, -, hfresh, rfl⟩ := addArray_eq_ok hm.invariant.1 hadd
    exact ⟨hfresh, EntryPoint.perm_addArray _ _, by simp [hasRing, Registration.opensRing]⟩
  | scalar name element =>
    obtain ⟨⟨m', s⟩, hadd, h⟩ := bind_eq_ok.1 h
    obtain rfl := Except.ok.inj h
    refine ⟨.scalar hm hadd, ?_⟩
    obtain ⟨rfl, hfresh, rfl⟩ := addScalar_eq_ok hadd
    exact ⟨hfresh, EntryPoint.perm_addScalar _ _, by simp [hasRing, Registration.opensRing]⟩
  | localScalar name element =>
    obtain ⟨⟨m', s⟩, hadd, h⟩ := bind_eq_ok.1 h
    obtain rfl := Except.ok.inj h
    refine ⟨.localScalar hm hadd, ?_⟩
    obtain ⟨rfl, hfresh, rfl⟩ := addLocal_eq_ok hadd
    exact ⟨hfresh, EntryPoint.perm_addLocal _ _, by simp [hasRing, Registration.opensRing]⟩

/-- What calls add: their names, all different, and a ring for those that open one. -/
theorem Registered.addAll (hm : Registered specs m) {calls : List Registration} {m' : March}
    (h : calls.foldlM Registration.apply m = .ok m') :
    Registered specs m' ∧
      m'.entry.registeredNames.Perm (calls.map Registration.name ++ m.entry.registeredNames) ∧
      m'.hasRing = (m.hasRing || calls.any Registration.opensRing) := by
  induction calls generalizing m with
  | nil =>
    obtain rfl := Except.ok.inj h
    exact ⟨hm, .refl _, by simp⟩
  | cons c calls ih =>
    rw [List.foldlM_cons] at h
    obtain ⟨next, hnext, h⟩ := bind_eq_ok.1 h
    obtain ⟨hregistered, hadded⟩ := hm.add hnext
    obtain ⟨hm', hnames, hring⟩ := ih hregistered h
    refine ⟨hm', ?_, by rw [hring, hadded.ring, List.any_cons, Bool.or_assoc]⟩
    calc m'.entry.registeredNames
      _ |>.Perm (calls.map Registration.name ++ next.entry.registeredNames) := hnames
      _ |>.Perm _ := hadded.names.append_left _
      _ |>.Perm _ := List.perm_middle

/-- The declarations of slots and the statements that advance them are in the loop nest. -/
theorem mem_nodes_of_slots {point body : Stmt} (h : m.loopNest point = .ok body) :
    (∀ s ∈ m.slotScalars, .declare s ∈ body.nodes) ∧ ∀ x ∈ m.advanceSlots, x ∈ body.nodes := by
  obtain ⟨bounds, -, h⟩ := bind_eq_ok.1 h
  obtain rfl := Except.ok.inj h
  constructor
  · intro s hs
    simp [Stmt.nodes, Stmt.mem_nodesAll, hs]
  · intro x hx
    have hself : x ∈ x.nodes := by
      rw [(frame_advanceSlots hx).2]
      exact List.mem_singleton_self x
    have hbody : x ∈ (Stmt.block (m.advanceSlots ++ [point.nest m.spaceHeads])).nodes :=
      List.mem_cons_of_mem _ (Stmt.mem_nodesAll.2 ⟨x, List.mem_append_left _ hx, hself⟩)
    have hloop : x ∈ (Stmt.loop ⟨m.timeCounter, bounds, [], .sequential⟩
        (.block (m.advanceSlots ++ [point.nest m.spaceHeads]))).nodes :=
      List.mem_cons_of_mem _ hbody
    apply List.mem_cons_of_mem
    exact Stmt.mem_nodesAll.2 ⟨_, List.mem_append_right _ (List.mem_singleton_self _), hloop⟩

/-- Every slot is declared and advanced. -/
theorem sets_slotScalars {point body : Stmt} (h : m.loopNest point = .ok body) {s : Scalar}
    (hs : s ∈ m.slotScalars) :
    .declare s ∈ body.nodes ∧ ∃ value, .assign (.scalar s) value ∈ body.nodes := by
  obtain ⟨hdeclares, hadvances⟩ := mem_nodes_of_slots h
  obtain ⟨hring, k, hk, rfl⟩ := mem_slotScalars_iff.1 hs
  have hadvance : m.advanceSlot (m.nthSlot k) ∈ m.advanceSlots :=
    mem_advanceSlots_iff.2 ⟨hring, _, nthSlot_le hk, rfl⟩
  rw [advanceSlot_eq, nthSlot_nthSlot hk] at hadvance
  exact ⟨hdeclares _ hs, _, hadvances _ hadvance⟩

/-- The statements of a loop nest that set a scalar stand at a grid point or set a slot. -/
theorem setScalar_of_loopNest {point body : Stmt} (h : m.loopNest point = .ok body) {x : Stmt}
    (hx : x ∈ body.nodes) {name : String} (hname : Machine.setScalar? x = some name) :
    x ∈ point.nodes ∨ ∃ s ∈ m.slotScalars, s.name = name := by
  rcases mem_nodes_loopNest h hx with hx | ⟨s, hs, rfl⟩ | hx | ⟨ss, rfl⟩ | ⟨head, inner, rfl⟩
  · exact .inl hx
  · exact .inr ⟨s, hs, Option.some.inj hname⟩
  · obtain ⟨s, hs, value, rfl⟩ := exists_assign_of_advance hx
    exact .inr ⟨s, hs, Option.some.inj hname⟩
  · cases hname
  · cases hname

/-- The body of an entry point is a loop nest, whatever guarded assignments and source are
registered. -/
theorem exists_point_of_calls {calls : List Call} {e : EntryPoint}
    (he : (calls.foldl Call.apply m).entryPoint = .ok e) :
    ∃ point body, m.loopNest point = .ok body ∧ e = m.entry.withBody body := by
  obtain ⟨source?, hm'⟩ := foldl_apply m calls
  rw [hm'] at he
  unfold entryPoint at he
  split at he
  · cases he
  · rename_i point _
    obtain ⟨body, hbody, he⟩ := bind_eq_ok.1 he
    exact ⟨point, body, hbody, (Except.ok.inj he).symm⟩
  · obtain ⟨body, hbuild, he⟩ := bind_eq_ok.1 he
    obtain ⟨-, ss, -, hbody⟩ := build_eq_ok.1 hbuild
    exact ⟨.block ss, body, hbody, (Except.ok.inj he).symm⟩

/-- A slot and a registered entity share a name exactly when a call asks for the name of a slot and
some array is not saved, in whichever order. The kernel then declares and assigns that scalar;
beside the slots it sets only what the statements of a grid point set. -/
theorem slots_clash_iff {m₀ m : March} {calls : List Registration}
    (hstart : ofSpecs specs = .ok m₀) (hcalls : calls.foldlM Registration.apply m₀ = .ok m) :
    m.entry.registeredNames.Perm (calls.map Registration.name) ∧
      (calls.map Registration.name).Nodup ∧
      ((∃ s ∈ m.slotScalars, s.name ∈ m.entry.registeredNames) ↔
        (∃ c ∈ calls, c.opensRing) ∧
          ∃ c ∈ calls, ∃ k ≤ specs.order.toNat, c.name = (slotScalar k).name) ∧
      ∀ (later : List Call) (e : EntryPoint), (later.foldl Call.apply m).entryPoint = .ok e →
        ∃ point body, m.loopNest point = .ok body ∧ e = m.entry.withBody body ∧
          (∀ s ∈ m.slotScalars,
            .declare s ∈ body.nodes ∧ ∃ value, .assign (.scalar s) value ∈ body.nodes) ∧
          ∀ x ∈ body.nodes, ∀ name, Machine.setScalar? x = some name →
            x ∈ point.nodes ∨ ∃ s ∈ m.slotScalars, s.name = name := by
  obtain ⟨hconfigured, hentry, hsaved⟩ := ofSpecs_eq_ok hstart
  obtain ⟨hm, hnames, hring⟩ := (Registered.start hstart).addAll hcalls
  have hnone : m₀.entry.registeredNames = [] := by
    rw [hentry]
    rfl
  have hring : m.hasRing = calls.any Registration.opensRing := by
    rw [hring, hasRing, hsaved, List.any_nil, Bool.false_or]
  rw [hnone, List.append_nil] at hnames
  refine ⟨hnames, hnames.nodup_iff.1 hm.names, ?_, fun later e he => ?_⟩
  · have hopens : m.hasRing ↔ ∃ c ∈ calls, c.opensRing := by
      rw [hring, List.any_eq_true]
    have horder : m.order = specs.order := hm.invariant.1.order
    constructor
    · rintro ⟨s, hs, hname⟩
      obtain ⟨hring, k, hk, rfl⟩ := mem_slotScalars_iff.1 hs
      obtain ⟨c, hc, hname⟩ := List.mem_map.1 (hnames.mem_iff.1 hname)
      exact ⟨hopens.1 hring, c, hc, k, horder ▸ hk, hname⟩
    · rintro ⟨hopened, c, hc, k, hk, hname⟩
      refine ⟨slotScalar k, mem_slotScalars (hopens.2 hopened) (horder ▸ hk), ?_⟩
      exact hnames.mem_iff.2 (hname ▸ List.mem_map_of_mem hc)
  · obtain ⟨point, body, hbody, rfl⟩ := exists_point_of_calls he
    exact ⟨point, body, hbody, rfl, fun s hs => sets_slotScalars hbody hs,
      fun x hx name hname => setScalar_of_loopNest hbody hx hname⟩

/-- Calls that register a scalar under the name of a slot before any ring is there. -/
theorem exists_clash :
    ∃ m₀ m e, ofSpecs ringSpecs = .ok m₀ ∧
      [Registration.scalar "t0" .float64, .array "v" [2, 4] .float64 false].foldlM
        Registration.apply m₀ = .ok m ∧
      ([Call.source (.body (.block []))].foldl Call.apply m).entryPoint = .ok e :=
  ⟨_, _, _, rfl, rfl, rfl⟩

/-- A scalar that is registered before any ring is there ends up as a slot. -/
theorem slots_clash_scalar :
    ∃ m₀ m e, ofSpecs ringSpecs = .ok m₀ ∧
      [Registration.scalar "t0" .float64, .array "v" [2, 4] .float64 false].foldlM
        Registration.apply m₀ = .ok m ∧
      ([Call.source (.body (.block []))].foldl Call.apply m).entryPoint = .ok e ∧
      ∃ body, e = m.entry.withBody body ∧ ∃ s ∈ m.slotScalars, s.name ∈ m.entry.registeredNames ∧
        .declare s ∈ body.nodes ∧ ∃ value, .assign (.scalar s) value ∈ body.nodes := by
  obtain ⟨m₀, m, e, hstart, hcalls, he⟩ := exists_clash
  obtain ⟨-, -, hclash, hkernel⟩ := slots_clash_iff hstart hcalls
  obtain ⟨s, hs, hname⟩ := hclash.2
    ⟨⟨.array "v" [2, 4] .float64 false, by simp, rfl⟩, .scalar "t0" .float64, by simp, 0,
      by decide, rfl⟩
  obtain ⟨point, body, -, hbody, hsets, -⟩ := hkernel _ e he
  have hset := hsets s hs
  exact ⟨m₀, m, e, hstart, hcalls, he, body, hbody, s, hs, hname, hset.1, hset.2⟩

end GridKernel.March
