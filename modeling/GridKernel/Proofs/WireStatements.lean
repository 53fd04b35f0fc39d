import GridKernel.Proofs.WireForms

/-!
Written forms of statements. A statement's compact text is read back as the statement, if its
floats are finite and read back from their own texts and no more containers are open at once than
the reader allows. The induction follows the writer of statements, over the written forms of
expressions.
-/
namespace GridKernel

def Parameter.floats : Parameter → List Binary64
  | .array a => a.floats
  | .scalar _ => []

def LoopHead.floats (h : LoopHead) : List Binary64 :=
  h.dim.floats ++ (h.bounds.lower.floats ++ (h.bounds.upper.floats ++
    Dimension.floatsAll h.companions))

mutual

/-- All floats of a statement, in the expressions, axes and arrays of all statements inside it. -/
def Stmt.floats : Stmt → List Binary64
  | .assign target value => target.floats ++ value.floats
  | .loop h body => h.floats ++ body.floats
  | .when c body => c.floats ++ body.floats
  | .ifElse c t e => c.floats ++ (t.floats ++ e.floats)
  | .block body => Stmt.floatsAll body
  | .view a => a.floats
  | .declare _ => []
  | .kernel s body => s.parameters.flatMap Parameter.floats ++ body.floats
termination_by structural s => s

def Stmt.floatsAll : List Stmt → List Binary64
  | [] => []
  | s :: ss => s.floats ++ Stmt.floatsAll ss
termination_by structural ss => ss

end

namespace Wire

/-! Texts of statements. -/

@[simp] theorem printable_equation (e : Equation) : (encodeEquation e).Printable := by
  simp [encodeEquation]

@[simp] theorem printable_bounds (b : Bounds) : (encodeBounds b).Printable := by
  simp [encodeBounds]

@[simp] theorem printable_parameter (p : Parameter) : (encodeParameter p).Printable := by
  cases p <;> simp [encodeParameter]

theorem printable_signature (s : Signature) {body : Json} (h : body.Printable) :
    (encodeSignature s body).Printable := by
  cases hresult : s.result? <;> simp [encodeSignature, hresult, orNull, h]

mutual

@[simp] theorem printable_stmt : ∀ s : Stmt, (encodeStmt s).Printable
  | .assign target value => by simp [encodeStmt]
  | .loop h body => by
    have hcompanions := printable_dimensions h.companions
    simpa [encodeStmt, printable_stmt body] using hcompanions
  | .when c body => by simp [encodeStmt, printable_stmt body]
  | .ifElse c t e => by simp [encodeStmt, printable_stmt t, printable_stmt e]
  | .block body => by
    have hbody := printable_stmts body
    simpa [encodeStmt] using hbody
  | .view a => by simp [encodeStmt]
  | .declare s => by simp [encodeStmt]
  | .kernel s body => by simp [encodeStmt, printable_signature s (printable_stmt body)]
termination_by structural s => s

theorem printable_stmts : ∀ ss : List Stmt, ∀ j ∈ encodeStmts ss, j.Printable
  | [] => by simp [encodeStmts]
  | s :: ss => by simpa [encodeStmts, printable_stmt s] using printable_stmts ss
termination_by structural ss => ss

end

/-! Reading statements back. -/

@[simp] theorem choice_order (o : LoopOrder) (depth : Nat) :
    choice LoopOrder.all LoopOrder.tag depth (.str o.tag) = some o :=
  choice_tag (by cases o <;> rfl) depth

theorem recovers_qualifier (q : Qualifier) :
    Recovers (fun _ => choice Qualifier.all Qualifier.tag) (.str q.tag) q := by
  intro fuel depth _ _
  exact choice_tag (by cases q; rfl) depth

theorem recovers_equation (e : Equation) (hlhs : ∀ x ∈ e.lhs.floats, x.ReadsBack)
    (hrhs : ∀ x ∈ e.rhs.floats, x.ReadsBack) : Recovers decodeEquation (encodeEquation e) e := by
  intro fuel depth hfuel hdepth
  obtain ⟨depth, rfl, hfields⟩ := Json.nesting_obj_le hdepth
  simp only [List.forall_mem_cons] at hfields
  have hleft := recovers_expr e.lhs hlhs fuel depth (by omega) hfields.1
  have hright := recovers_expr e.rhs hrhs fuel depth (by omega) hfields.2.1
  simp [decodeEquation, encodeEquation, record_obj, lookup?, hleft, hright]

theorem recovers_bounds (b : Bounds) (hlower : ∀ x ∈ b.lower.floats, x.ReadsBack)
    (hupper : ∀ x ∈ b.upper.floats, x.ReadsBack) : Recovers decodeBounds (encodeBounds b) b := by
  intro fuel depth hfuel hdepth
  obtain ⟨depth, rfl, hfields⟩ := Json.nesting_obj_le hdepth
  simp only [List.forall_mem_cons] at hfields
  have hfrom := recovers_expr b.lower hlower fuel depth (by omega) hfields.1
  have hto := recovers_expr b.upper hupper fuel depth (by omega) hfields.2.1
  simp [decodeBounds, encodeBounds, record_obj, lookup?, hfrom, hto]

theorem recovers_parameter (p : Parameter) (h : ∀ x ∈ p.floats, x.ReadsBack) :
    Recovers decodeParameter (encodeParameter p) p := by
  cases p with
  | array a =>
    apply recovers_tagged
    intro fuel depth hfuel hdepth
    have harray := recovers_gridArray a h (fuel + 1) depth (by omega) hdepth
    simp [decodeParameter, harray]
  | scalar s =>
    apply recovers_tagged
    intro fuel depth hfuel hdepth
    have hscalar := recovers_scalar s fuel depth hfuel hdepth
    simp [decodeParameter, hscalar]

theorem optional_given {α : Type} (read : Json → Option α) {j : Json} (h : j ≠ .null) :
    optional read (.given j) = (read j).map some := by
  cases j with
  | null => exact absurd rfl h
  | _ => rfl

theorem recovers_result (result? : Option ElementType) (depth : Nat) :
    optional (decodeElement depth) (.given (orNull (fun t => .str t.tag) result?)) =
      some result? := by
  cases result? with
  | none => rfl
  | some t =>
    show (decodeElement depth (.str t.tag)).map some = _
    rw [choice_element]
    rfl

/-- A kernel is recovered when its body is. -/
theorem recovers_kernel {read : Nat → Reader Stmt} {j : Json} {body : Stmt} (s : Signature)
    (hparameters : ∀ x ∈ s.parameters.flatMap Parameter.floats, x.ReadsBack)
    (hbody : Recovers read j body) :
    Recovers (fun fuel => decodeKernelWith fuel (read fuel)) (encodeSignature s j) ⟨s, body⟩ := by
  intro fuel depth hfuel hdepth
  obtain ⟨depth, rfl, hfields⟩ := Json.nesting_obj_le hdepth
  simp only [List.forall_mem_cons] at hfields
  obtain ⟨-, hbodyDepth, -, hparameterDepth, hqualifierDepth, -⟩ := hfields
  have hfuel : depth < fuel := by omega
  have hstmt := hbody fuel depth hfuel hbodyDepth
  have hresult := recovers_result s.result? depth
  have hparameter : ∀ p ∈ s.parameters, Recovers decodeParameter (encodeParameter p) p :=
    fun p hp => recovers_parameter p fun x hx => hparameters x (List.mem_flatMap.2 ⟨p, hp, hx⟩)
  have hparams := (RecoversAll.map hparameter).list fuel depth hfuel hparameterDepth
  have hqualifiers := (RecoversAll.map fun q _ => recovers_qualifier q).list fuel depth hfuel
    hqualifierDepth
  simp [decodeKernelWith, encodeSignature, record_obj, lookup?, hstmt, hresult, hparams,
    hqualifiers]

theorem encodeStmt_ne_null (s : Stmt) : encodeStmt s ≠ .null := by
  cases s <;> simp [encodeStmt, tagged, Json.obj]

mutual

/-- A written statement is recovered, one case for each kind of statement. -/
theorem recovers_stmt : ∀ s : Stmt, (∀ x ∈ s.floats, x.ReadsBack) →
    Recovers decodeStmt (encodeStmt s) s
  | .assign target value, hx => by
    apply recovers_tagged
    intro fuel depth hfuel hdepth
    obtain ⟨htarget, hvalue⟩ := List.forall_mem_append.1 hx
    have hequation := recovers_equation ⟨target, value⟩ htarget hvalue fuel depth hfuel hdepth
    simp [decodeStmt, hequation]
  | .loop h body, hx => by
    apply recovers_tagged
    intro fuel depth hfuel hdepth
    obtain ⟨hhead, hbodyFloats⟩ := List.forall_mem_append.1 hx
    obtain ⟨hdimFloats, hhead⟩ := List.forall_mem_append.1 hhead
    obtain ⟨hlower, hhead⟩ := List.forall_mem_append.1 hhead
    obtain ⟨hupper, hcompanionFloats⟩ := List.forall_mem_append.1 hhead
    obtain ⟨depth, rfl, hfields⟩ := Json.nesting_obj_le hdepth
    simp only [List.forall_mem_cons] at hfields
    obtain ⟨hbodyDepth, hdimDepth, hboundsDepth, hcompanionDepth, -⟩ := hfields
    have hfuel : depth < fuel := by omega
    have hbody := recovers_stmt body hbodyFloats fuel depth hfuel hbodyDepth
    have hdim := recovers_dimension h.dim hdimFloats fuel depth hfuel hdimDepth
    have hbounds := recovers_bounds h.bounds hlower hupper fuel depth hfuel hboundsDepth
    have hcompanions := (recovers_dimensions h.companions hcompanionFloats).list fuel depth hfuel
      hcompanionDepth
    simp [decodeStmt, record_obj, lookup?, hbody, hdim, hbounds, hcompanions]
  | .when c body, hx => by
    apply recovers_tagged
    intro fuel depth hfuel hdepth
    obtain ⟨hcFloats, hbodyFloats⟩ := List.forall_mem_append.1 hx
    obtain ⟨depth, rfl, hfields⟩ := Json.nesting_obj_le hdepth
    simp only [List.forall_mem_cons] at hfields
    have hc := recovers_expr c hcFloats fuel depth (by omega) hfields.1
    have hbody := recovers_stmt body hbodyFloats fuel depth (by omega) hfields.2.1
    simp [decodeStmt, record_obj, lookup?, hc, hbody, optional]
  | .ifElse c t e, hx => by
    apply recovers_tagged
    intro fuel depth hfuel hdepth
    obtain ⟨hcFloats, hbranches⟩ := List.forall_mem_append.1 hx
    obtain ⟨htFloats, heFloats⟩ := List.forall_mem_append.1 hbranches
    obtain ⟨depth, rfl, hfields⟩ := Json.nesting_obj_le hdepth
    simp only [List.forall_mem_cons] at hfields
    obtain ⟨hcDepth, htDepth, heDepth, -⟩ := hfields
    have hfuel : depth < fuel := by omega
    have hc := recovers_expr c hcFloats fuel depth hfuel hcDepth
    have ht := recovers_stmt t htFloats fuel depth hfuel htDepth
    have he := recovers_stmt e heFloats fuel depth hfuel heDepth
    simp [decodeStmt, record_obj, lookup?, hc, ht, he, optional_given _ (encodeStmt_ne_null e)]
  | .block body, hx => by
    apply recovers_tagged
    intro fuel depth hfuel hdepth
    have hbody := (recovers_stmts body hx).list fuel depth hfuel hdepth
    simp [decodeStmt, hbody]
  | .view a, hx => by
    apply recovers_tagged
    intro fuel depth hfuel hdepth
    have harray := recovers_gridArray a hx fuel depth hfuel hdepth
    simp [decodeStmt, harray]
  | .declare s, _ => by
    apply recovers_tagged
    intro fuel depth hfuel hdepth
    have hscalar := recovers_scalar s fuel depth hfuel hdepth
    simp [decodeStmt, hscalar]
  | .kernel s body, hx => by
    apply recovers_tagged
    intro fuel depth hfuel hdepth
    obtain ⟨hparameters, hbodyFloats⟩ := List.forall_mem_append.1 hx
    have hbody := recovers_stmt body hbodyFloats
    have hkernel := recovers_kernel s hparameters hbody fuel depth hfuel hdepth
    simp [decodeStmt, hkernel, Kernel.toStmt]
termination_by structural s => s

theorem recovers_stmts : ∀ ss : List Stmt, (∀ x ∈ Stmt.floatsAll ss, x.ReadsBack) →
    RecoversAll decodeStmt (encodeStmts ss) ss
  | [], _ => .nil
  | s :: ss, hx =>
    .cons (recovers_stmt s (List.forall_mem_append.1 hx).1)
      (recovers_stmts ss (List.forall_mem_append.1 hx).2)
termination_by structural ss => ss

end

/-- A statement whose floats are finite is read back from its text, as long as each of its floats
is read back from its own text and the containers of the text stay within the depth. -/
theorem stmt_reads_back (s : Stmt) (hfinite : ∀ x ∈ s.floats, x.isFinite)
    (hfloats : ∀ x ∈ s.floats, x.isFinite → x.ReadsBack)
    (hdepth : (encodeStmt s).nesting ≤ depthLimit) :
    parse? decodeStmt (encodeStmt s).compact = some s := by
  have hread : Json.read? (encodeStmt s).compact = some (encodeStmt s) :=
    Json.read?_compact (printable_stmt s)
  have hrecovers := recovers_stmt s fun x hx => hfloats x hx (hfinite x hx)
  calc parse? decodeStmt (encodeStmt s).compact
      = decodeStmt (depthLimit + 1) depthLimit (encodeStmt s) := by rw [parse?, hread]; rfl
    _ = some s := hrecovers (depthLimit + 1) depthLimit (Nat.lt_succ_self _) hdepth

/-- A kernel with names that are escaped, numbers at the ends of their ranges and a float. -/
def sampleKernel : Stmt :=
  let x : Dimension := ⟨"x", .spatial⟩
  let ahead : Dimension :=
    ⟨"x\t+1", .incremented x (.int (-9223372036854775808)) (.int 9223372036854775807)⟩
  let u : GridArray :=
    ⟨"\"u\"", .float64, [x], [.size "x"], [⟨18446744073709551615, 0⟩], .external⟩
  .kernel ⟨"δ\\u", none, [.array u, .scalar ⟨"dt", .float32⟩], [.static]⟩ <|
    .loop ⟨x, .upTo (.size "x"), [ahead], .parallel⟩ <| .block
      [.ifElse (.binary .lt (.access u [.dim ahead]) (.float ⟨0x3fe0000000000000⟩))
        (.assign (.access u [.dim x]) (.neg (.float ⟨0x3fb999999999999a⟩))) (.view u)]

theorem stmt_reads_back_kernel :
    (∀ x ∈ sampleKernel.floats, x.isFinite) ∧
      (∀ x ∈ sampleKernel.floats, x.isFinite → x.ReadsBack) ∧
      (encodeStmt sampleKernel).nesting ≤ depthLimit ∧
      parse? decodeStmt (encodeStmt sampleKernel).compact = some sampleKernel := by
  have hfinite : ∀ x ∈ sampleKernel.floats, x.isFinite := by decide +kernel
  have hfloats : ∀ x ∈ sampleKernel.floats, x.isFinite → x.ReadsBack := by decide +kernel
  have hdepth : (encodeStmt sampleKernel).nesting ≤ depthLimit := by decide +kernel
  exact ⟨hfinite, hfloats, hdepth,
    stmt_reads_back sampleKernel hfinite hfloats hdepth⟩

end Wire

end GridKernel
