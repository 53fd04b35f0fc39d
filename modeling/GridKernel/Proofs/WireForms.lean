import GridKernel.Proofs.JsonTexts
import GridKernel.Wire.Decode

/-!
Written forms of expressions, axes and arrays. Every written form has a text, and its reader gives
back what was written as long as the containers around it and in it are within the depth and the
floats read back from their numbers. `Recovers` states this for one value and `RecoversAll` for a
list; the induction follows the writers over all four types at once.
-/
namespace GridKernel

namespace Json

mutual

/-- The number of containers that are open at once when a value is read. -/
def nesting : Json → Nat
  | array items => nestingItems items + 1
  | object fields => nestingFields fields + 1
  | _ => 0
termination_by structural j => j

def nestingItems : List Json → Nat
  | [] => 0
  | j :: js => max j.nesting (nestingItems js)
termination_by structural js => js

def nestingFields : List (Option String × Json) → Nat
  | [] => 0
  | f :: fs => max (nestingField f) (nestingFields fs)
termination_by structural fs => fs

def nestingField : Option String × Json → Nat
  | (_, value) => value.nesting
termination_by structural f => f

end

theorem nesting_array_le {items : List Json} {depth : Nat} (h : (array items).nesting ≤ depth) :
    ∃ d, depth = d + 1 ∧ nestingItems items ≤ d := by
  simp only [nesting] at h
  exact ⟨depth - 1, by omega, by omega⟩

theorem nesting_le_of_fields {fields : List (String × Json)} {depth : Nat}
    (h : nestingFields (fields.map fun (key, value) => (some key, value)) ≤ depth) :
    ∀ f ∈ fields, f.2.nesting ≤ depth := by
  induction fields with
  | nil => simp
  | cons f fs ih =>
    simp only [List.map_cons, nestingFields, nestingField, Nat.max_le] at h
    rw [List.forall_mem_cons]
    exact ⟨h.1, ih h.2⟩

/-- The fields of an object are one container deeper. -/
theorem nesting_obj_le {fields : List (String × Json)} {depth : Nat}
    (h : (obj fields).nesting ≤ depth) : ∃ d, depth = d + 1 ∧ ∀ f ∈ fields, f.2.nesting ≤ d := by
  unfold obj at h
  rw [nesting] at h
  exact ⟨depth - 1, by omega, nesting_le_of_fields (Nat.le_sub_one_of_lt h)⟩

end Json

/-- A float whose printed text is read back as the float. -/
def Binary64.ReadsBack (x : Binary64) : Prop :=
  (Json.read? (Json.double x).compact).bind Wire.double = some x

instance (x : Binary64) : Decidable x.ReadsBack := inferInstanceAs (Decidable (_ = some x))

mutual

/-- All floats of an expression, those in axes and arrays included. -/
def Expr.floats : Expr → List Binary64
  | .float x => [x]
  | .dim d => d.floats
  | .access a indices => a.floats ++ Expr.floatsAll indices
  | .neg e => e.floats
  | .binary _ l r => l.floats ++ r.floats
  | _ => []
termination_by structural e => e

def Expr.floatsAll : List Expr → List Binary64
  | [] => []
  | e :: es => e.floats ++ Expr.floatsAll es
termination_by structural es => es

def AxisRole.floats : AxisRole → List Binary64
  | .sized size => size.floats
  | .incremented parent start step => parent.floats ++ (start.floats ++ step.floats)
  | _ => []
termination_by structural k => k

def Dimension.floats : Dimension → List Binary64
  | ⟨_, role⟩ => role.floats
termination_by structural d => d

def Dimension.floatsAll : List Dimension → List Binary64
  | [] => []
  | d :: ds => d.floats ++ Dimension.floatsAll ds
termination_by structural ds => ds

def GridArray.floats : GridArray → List Binary64
  | ⟨_, _, dims, shape, _, _⟩ => Dimension.floatsAll dims ++ Expr.floatsAll shape
termination_by structural a => a

end

namespace Wire

variable {α β : Type}

/-! Shapes. -/

/-- What a reader gives back from a written value, whenever the depth is enough. -/
def Recovers (read : Nat → Reader α) (j : Json) (x : α) : Prop :=
  ∀ fuel depth, depth < fuel → j.nesting ≤ depth → read fuel depth j = some x

def RecoversAll (read : Nat → Reader α) (js : List Json) (xs : List α) : Prop :=
  ∀ fuel depth, depth < fuel → Json.nestingItems js ≤ depth →
    js.mapM (read fuel depth) = some xs

theorem RecoversAll.nil {read : Nat → Reader α} : RecoversAll read [] [] := by
  intro fuel depth _ _
  rfl

theorem RecoversAll.cons {read : Nat → Reader α} {j : Json} {x : α} {js : List Json} {xs : List α}
    (h : Recovers read j x) (hs : RecoversAll read js xs) :
    RecoversAll read (j :: js) (x :: xs) := by
  intro fuel depth hfuel hdepth
  simp only [Json.nestingItems] at hdepth
  have hhead := h fuel depth hfuel (by omega)
  have htail := hs fuel depth hfuel (by omega)
  simp [List.mapM_cons, hhead, htail]

theorem RecoversAll.map {read : Nat → Reader α} {write : α → Json} {xs : List α}
    (h : ∀ x ∈ xs, Recovers read (write x) x) : RecoversAll read (xs.map write) xs := by
  induction xs with
  | nil => exact .nil
  | cons x xs ih =>
    exact .cons (h x List.mem_cons_self) (ih fun y hy => h y (List.mem_cons_of_mem x hy))

theorem RecoversAll.list {read : Nat → Reader α} {js : List Json} {xs : List α}
    (h : RecoversAll read js xs) : Recovers (fun fuel => list (read fuel)) (.array js) xs := by
  intro fuel depth hfuel hdepth
  obtain ⟨depth, rfl, hitems⟩ := Json.nesting_array_le hdepth
  exact h fuel depth (by omega) hitems

/-- A tagged value is recovered when its content is, one container deeper. -/
theorem recovers_tagged {read : Nat → Reader α} {tag : String} {content : Json} {x : α}
    (h : ∀ fuel depth, depth < fuel → content.nesting ≤ depth →
      read (fuel + 1) (depth + 1) (tagged tag content) = some x) :
    Recovers read (tagged tag content) x := by
  intro fuel depth hfuel hdepth
  obtain ⟨depth, rfl, hcontent⟩ := Json.nesting_obj_le hdepth
  obtain ⟨fuel, rfl⟩ : ∃ n, fuel = n + 1 := ⟨fuel - 1, by omega⟩
  exact h fuel depth (by omega) (hcontent _ List.mem_cons_self)

@[simp] theorem variant_tagged (tag : String) (content : Json) (depth : Nat) :
    variant (depth + 1) (tagged tag content) = some (tag, some (depth, content)) := rfl

@[simp] theorem variant_str (tag : String) (depth : Nat) :
    variant depth (.str tag) = some (tag, none) := by
  cases depth <;> rfl

@[simp] theorem plainVariant_str (tag : String) (depth : Nat) :
    plainVariant depth (.str tag) = some tag := by
  simp [plainVariant]

theorem record_obj (names : List String) (depth : Nat) (fields : List (String × Json)) :
    record names (depth + 1) (.obj fields) =
      (names.mapM fun name => lookup? name (fields.map fun (key, value) => (some key, value))).map
        fun found => (depth, found) := by
  simp [record, Json.obj]

@[simp] theorem required_given (read : Json → Option α) (j : Json) :
    required read (.given j) = read j := rfl

theorem choice_tag {choices : List α} {tag : α → String} {x : α}
    (h : choices.find? (tag · == tag x) = some x) (depth : Nat) :
    choice choices tag depth (.str (tag x)) = some x := by
  simp [choice, h]

@[simp] theorem text_str (s : String) : text (.str s) = some s := rfl

@[simp] theorem choice_element (t : ElementType) (depth : Nat) :
    decodeElement depth (.str t.tag) = some t :=
  choice_tag (by cases t <;> rfl) depth

@[simp] theorem choice_scope (s : Scope) (depth : Nat) :
    choice Scope.all Scope.tag depth (.str s.tag) = some s :=
  choice_tag (by cases s <;> rfl) depth

@[simp] theorem choice_binaryOp (op : BinaryOp) (depth : Nat) :
    choice BinaryOp.all BinaryOp.tag depth (.str op.tag) = some op :=
  choice_tag (by cases op <;> rfl) depth

@[simp] theorem int_int (n : Int64) : int (.int n.toInt) = some n := by
  have hrange : -2 ^ 63 ≤ n.toInt ∧ n.toInt < 2 ^ 63 := ⟨n.le_toInt, n.toInt_lt⟩
  simp only [int, Json.int, Json.Numeral.int?_ofInt, Option.bind_some]
  rw [if_pos hrange, Int64.ofInt_toInt]

@[simp] theorem size_nat (n : UInt64) : size (.nat n.toNat) = some n := by
  have hnumeral : Json.Numeral.ofNat n.toNat = .ofInt n.toNat := by
    simp [Json.Numeral.ofNat, Json.Numeral.ofInt]
  have hlt := n.toNat_lt
  unfold size Json.nat
  dsimp only
  rw [hnumeral, Json.Numeral.int?_ofInt, Option.bind_some]
  split
  · rw [Int.toNat_natCast, UInt64.ofNat_toNat]
  · omega

theorem recovers_scalar (s : Scalar) : Recovers (fun _ => decodeScalar) (encodeScalar s) s := by
  intro fuel depth _ hdepth
  obtain ⟨depth, rfl, -⟩ := Json.nesting_obj_le hdepth
  simp [encodeScalar, decodeScalar, record_obj, lookup?]

theorem recovers_extent (e : Extent) : Recovers (fun _ => decodeExtent) (encodeExtent e) e := by
  intro fuel depth _ hdepth
  obtain ⟨depth, rfl, -⟩ := Json.nesting_obj_le hdepth
  have hrecord : record ["left", "right"] (depth + 1) (encodeExtent e) =
      some (depth, [.given (.nat e.left.toNat), .given (.nat e.right.toNat)]) := by
    simp [encodeExtent, record_obj, lookup?]
  show decodeExtent (depth + 1) (encodeExtent e) = some e
  unfold decodeExtent
  rw [hrecord]
  dsimp only
  -- Rewritten one by one, since a check by unfolding would print and read the numbers.
  rw [required_given, required_given, size_nat, size_nat]
  rfl

/-! Expressions, axes and arrays. -/

@[simp] theorem printable_tagged (tag : String) (content : Json) :
    (tagged tag content).Printable ↔ content.Printable := by simp [tagged]

@[simp] theorem printable_scalar (s : Scalar) : (encodeScalar s).Printable := by
  simp [encodeScalar]

@[simp] theorem printable_extent (e : Extent) : (encodeExtent e).Printable := by
  simp [encodeExtent]

mutual

@[simp] theorem printable_expr : ∀ e : Expr, (encodeExpr e).Printable
  | .int n => by simp [encodeExpr]
  | .float x => by simp [encodeExpr]
  | .symbol name => by simp [encodeExpr]
  | .scalar s => by simp [encodeExpr]
  | .dim d => by simp [encodeExpr, printable_dimension d]
  | .size name => by simp [encodeExpr]
  | .access a indices => by
    have hindices := printable_exprs indices
    simpa [encodeExpr, printable_gridArray a] using hindices
  | .neg e => by simp [encodeExpr, printable_expr e]
  | .binary op l r => by simp [encodeExpr, printable_expr l, printable_expr r]
termination_by structural e => e

theorem printable_exprs : ∀ es : List Expr, ∀ j ∈ encodeExprs es, j.Printable
  | [] => by simp [encodeExprs]
  | e :: es => by simpa [encodeExprs, printable_expr e] using printable_exprs es
termination_by structural es => es

@[simp] theorem printable_role : ∀ k : AxisRole, (encodeRole k).Printable
  | .sized size => by simp [encodeRole, printable_expr size]
  | .incremented parent start step => by
    simp [encodeRole, printable_dimension parent, printable_expr start, printable_expr step]
  | .spatial => Json.printable_str _
  | .time => Json.printable_str _
termination_by structural k => k

@[simp] theorem printable_dimension : ∀ d : Dimension, (encodeDimension d).Printable
  | ⟨name, role⟩ => by simp [encodeDimension, printable_role role]
termination_by structural d => d

theorem printable_dimensions : ∀ ds : List Dimension, ∀ j ∈ encodeDimensions ds, j.Printable
  | [] => by simp [encodeDimensions]
  | d :: ds => by simpa [encodeDimensions, printable_dimension d] using printable_dimensions ds
termination_by structural ds => ds

@[simp] theorem printable_gridArray : ∀ a : GridArray, (encodeArray a).Printable
  | ⟨name, element, dims, shape, halo, scope⟩ => by
    have hdims := printable_dimensions dims
    have hshape := printable_exprs shape
    simpa [encodeArray] using ⟨hdims, hshape⟩
termination_by structural a => a

end

/-- A float that reads back from its text does so from its number. -/
theorem double_double {x : Binary64} (h : x.ReadsBack) : double (.double x) = some x := by
  unfold Binary64.ReadsBack at h
  rwa [Json.read?_compact (Json.printable_double x)] at h

mutual

theorem recovers_expr : ∀ e : Expr, (∀ x ∈ e.floats, x.ReadsBack) →
    Recovers decodeExpr (encodeExpr e) e
  | .int n, _ => by
    apply recovers_tagged
    intro fuel depth _ _
    simp [decodeExpr]
  | .float x, hx => by
    apply recovers_tagged
    intro fuel depth _ _
    have hdouble := double_double (hx x List.mem_cons_self)
    simp [decodeExpr, hdouble]
  | .symbol name, _ => by
    apply recovers_tagged
    intro fuel depth _ _
    simp [decodeExpr]
  | .scalar s, _ => by
    apply recovers_tagged
    intro fuel depth hfuel hdepth
    have hscalar := recovers_scalar s fuel depth hfuel hdepth
    simp [decodeExpr, hscalar]
  | .dim d, hx => by
    apply recovers_tagged
    intro fuel depth hfuel hdepth
    have hdim := recovers_dimension d hx fuel depth hfuel hdepth
    simp [decodeExpr, hdim]
  | .size name, _ => by
    apply recovers_tagged
    intro fuel depth _ _
    simp [decodeExpr]
  | .access a indices, hx => by
    apply recovers_tagged
    intro fuel depth hfuel hdepth
    obtain ⟨harrayFloats, hindexFloats⟩ := List.forall_mem_append.1 hx
    obtain ⟨depth, rfl, hfields⟩ := Json.nesting_obj_le hdepth
    simp only [List.forall_mem_cons] at hfields
    have harray := recovers_gridArray a harrayFloats fuel depth (by omega) hfields.1
    have hindices :=
      (recovers_exprs indices hindexFloats).list fuel depth (by omega) hfields.2.1
    simp [decodeExpr, record_obj, lookup?, harray, hindices]
  | .neg e, hx => by
    apply recovers_tagged
    intro fuel depth hfuel hdepth
    obtain ⟨depth, rfl, hitems⟩ := Json.nesting_array_le hdepth
    simp only [Json.nestingItems] at hitems
    have hoperand := recovers_expr e hx fuel depth (by omega) (by omega)
    simp [decodeExpr, tuple, hoperand]
  | .binary op l r, hx => by
    apply recovers_tagged
    intro fuel depth hfuel hdepth
    obtain ⟨hleftFloats, hrightFloats⟩ := List.forall_mem_append.1 hx
    obtain ⟨depth, rfl, hitems⟩ := Json.nesting_array_le hdepth
    simp only [Json.nestingItems] at hitems
    have hleft := recovers_expr l hleftFloats fuel depth (by omega) (by omega)
    have hright := recovers_expr r hrightFloats fuel depth (by omega) (by omega)
    simp [decodeExpr, tuple, hleft, hright]
termination_by structural e => e

theorem recovers_exprs : ∀ es : List Expr, (∀ x ∈ Expr.floatsAll es, x.ReadsBack) →
    RecoversAll decodeExpr (encodeExprs es) es
  | [], _ => .nil
  | e :: es, hx =>
    .cons (recovers_expr e (List.forall_mem_append.1 hx).1)
      (recovers_exprs es (List.forall_mem_append.1 hx).2)
termination_by structural es => es

theorem recovers_role : ∀ k : AxisRole, (∀ x ∈ k.floats, x.ReadsBack) →
    Recovers decodeRole (encodeRole k) k
  | .sized size, hx => by
    apply recovers_tagged
    intro fuel depth hfuel hdepth
    obtain ⟨depth, rfl, hfields⟩ := Json.nesting_obj_le hdepth
    simp only [List.forall_mem_cons] at hfields
    have hsize := recovers_expr size hx fuel depth (by omega) hfields.1
    simp [decodeRole, record_obj, lookup?, hsize]
  | .incremented parent start step, hx => by
    apply recovers_tagged
    intro fuel depth hfuel hdepth
    obtain ⟨hparentFloats, hrest⟩ := List.forall_mem_append.1 hx
    obtain ⟨hstartFloats, hstepFloats⟩ := List.forall_mem_append.1 hrest
    obtain ⟨depth, rfl, hfields⟩ := Json.nesting_obj_le hdepth
    simp only [List.forall_mem_cons] at hfields
    obtain ⟨hparentDepth, hstartDepth, hstepDepth, -⟩ := hfields
    have hfuel : depth < fuel := by omega
    have hparent := recovers_dimension parent hparentFloats fuel depth hfuel hparentDepth
    have hstart := recovers_expr start hstartFloats fuel depth hfuel hstartDepth
    have hstep := recovers_expr step hstepFloats fuel depth hfuel hstepDepth
    simp [decodeRole, record_obj, lookup?, hparent, hstart, hstep]
  | .spatial, _ => by
    intro fuel depth hfuel _
    obtain ⟨fuel, rfl⟩ : ∃ n, fuel = n + 1 := ⟨fuel - 1, by omega⟩
    simp [decodeRole, encodeRole]
  | .time, _ => by
    intro fuel depth hfuel _
    obtain ⟨fuel, rfl⟩ : ∃ n, fuel = n + 1 := ⟨fuel - 1, by omega⟩
    simp [decodeRole, encodeRole]
termination_by structural k => k

theorem recovers_dimension : ∀ d : Dimension, (∀ x ∈ d.floats, x.ReadsBack) →
    Recovers decodeDimension (encodeDimension d) d
  | ⟨name, role⟩, hx => by
    intro fuel depth hfuel hdepth
    obtain ⟨depth, rfl, hfields⟩ := Json.nesting_obj_le hdepth
    obtain ⟨fuel, rfl⟩ : ∃ n, fuel = n + 1 := ⟨fuel - 1, by omega⟩
    simp only [List.forall_mem_cons] at hfields
    have hrole := recovers_role role hx fuel depth (by omega) hfields.2.1
    simp [decodeDimension, encodeDimension, record_obj, lookup?, hrole]
termination_by structural d => d

theorem recovers_dimensions : ∀ ds : List Dimension,
    (∀ x ∈ Dimension.floatsAll ds, x.ReadsBack) →
      RecoversAll decodeDimension (encodeDimensions ds) ds
  | [], _ => .nil
  | d :: ds, hx =>
    .cons (recovers_dimension d (List.forall_mem_append.1 hx).1)
      (recovers_dimensions ds (List.forall_mem_append.1 hx).2)
termination_by structural ds => ds

theorem recovers_gridArray : ∀ a : GridArray, (∀ x ∈ a.floats, x.ReadsBack) →
    Recovers decodeArray (encodeArray a) a
  | ⟨name, element, dims, shape, halo, scope⟩, hx => by
    intro fuel depth hfuel hdepth
    obtain ⟨hdimFloats, hshapeFloats⟩ := List.forall_mem_append.1 hx
    obtain ⟨depth, rfl, hfields⟩ := Json.nesting_obj_le hdepth
    obtain ⟨fuel, rfl⟩ : ∃ n, fuel = n + 1 := ⟨fuel - 1, by omega⟩
    simp only [List.forall_mem_cons] at hfields
    obtain ⟨-, -, hdimsDepth, hshapeDepth, hhaloDepth, -⟩ := hfields
    have hfuel : depth < fuel := by omega
    have hdims := (recovers_dimensions dims hdimFloats).list fuel depth hfuel hdimsDepth
    have hshape := (recovers_exprs shape hshapeFloats).list fuel depth hfuel hshapeDepth
    have hhalo := (RecoversAll.map fun e _ => recovers_extent e).list fuel depth hfuel hhaloDepth
    simp [decodeArray, encodeArray, record_obj, lookup?, hdims, hshape, hhalo]
termination_by structural a => a

end

end Wire

end GridKernel
