import TensorKernel.Proofs.Emission.Scalar

/-!
# Statements for operands

The statements that give the operands of an operator, their indices and their dimensions are typed,
if the nodes get names of their types.
-/

namespace TensorKernel

open Buffer (Holds Indices Operand Ty TypedIn Yields definitions)

/-! ## Types of buffers -/

section Types

variable {g : Graph} {id : NodeId}

theorem Graph.valueType_scalar (h : g.isScalar id = true) :
    g.valueType id = .scalar (g.elemSize id) := by
  rw [valueType, h]
  rfl

theorem Graph.valueType_buffer (h : g.isScalar id = false) :
    g.valueType id = bufferType (g.elemSize id) (g.shape id) := by
  rw [valueType, h]
  rfl

/-- Types that are equal up to the element size. -/
theorem same_of_sameShape {src dst : NodeId} (h : (g.type dst).sameShape (g.type src) = true) :
    g.isScalar dst = g.isScalar src ∧ g.shape src = g.shape dst := by
  simp only [KernelType.sameShape, Bool.and_eq_true, beq_iff_eq] at h
  exact ⟨h.1, h.2.symm⟩

@[simp]
theorem isBuffer_bufferType (sz : ElemSize) (shape : Shape) :
    (bufferType sz shape).isBuffer = true := rfl

@[simp]
theorem element_bufferType (sz : ElemSize) (shape : Shape) :
    (bufferType sz shape).element = .scalar sz := rfl

@[simp]
theorem rank_bufferType (sz : ElemSize) (shape : Shape) :
    (bufferType sz shape).rank = shape.length :=
  List.length_map _

theorem unknownAxes?_bufferType (sz : ElemSize) (shape : Shape) :
    (bufferType sz shape).unknownAxes? = some (shape.countP fun d => !d.isStatic) := by
  rw [bufferType, Ty.unknownAxes?, List.countP_map]
  congr 2
  funext d
  cases d <;> rfl

theorem isBuffer_valueType (h : g.isScalar id = false) : (g.valueType id).isBuffer = true := by
  rw [g.valueType_buffer h, isBuffer_bufferType]

theorem element_valueType (h : g.isScalar id = false) :
    (g.valueType id).element = .scalar (g.elemSize id) := by
  rw [g.valueType_buffer h, element_bufferType]

theorem rank_valueType (h : g.isScalar id = false) :
    (g.valueType id).rank = (g.shape id).length := by
  rw [g.valueType_buffer h, rank_bufferType]

theorem length_affineResults (shape : Shape) : ∀ (axis : Nat) (space : Shape),
    (affineResults axis shape space).length = shape.length := by
  induction shape with
  | nil => exact fun _ _ => rfl
  | cons d ds ih =>
    intro axis space
    cases space <;> simp [affineResults, ih]

end Types

namespace LowerM

variable {g : Graph} {castable : ElemSize → Prop} {fixed : Prop} {known : List Operand} {lo : Nat}
  {need : NodeId → LowerM Name} {s : LowerState} {ok : NodeId → Prop}

/-- The nodes that satisfy a condition get names of their types. -/
def Gives (g : Graph) (castable : ElemSize → Prop) (need : NodeId → LowerM Name)
    (ok : NodeId → Prop) : Prop :=
  ∀ {fixed : Prop} {known : List Operand} {lo : Nat} {s : LowerState} {id : NodeId}, ok id →
    Emits g castable fixed known lo (need id) s fun known' n => ⟨n, g.valueType id⟩ ∈ known'

/-! ## Operands and dimensions -/

theorem emits_indexConstant (k : Int) :
    Emits g castable fixed known lo (indexConstant k) s fun known' n => ⟨n, .index⟩ ∈ known' := by
  refine emits_get_bind fun hs => ?_
  cases hfound : s.indexConstant? k with
  | some name => exact emits_pure (hs.index hfound)
  | none =>
    refine emits_define (fun _ => ⟨rfl, rfl, rfl, rfl⟩) (fun _ => trivial)
      fun n s₁ known₁ _ hn => ?_
    exact (emits_bindConstant k hn).bind fun _ _ _ h₂ _ => emits_pure (h₂ hn)

theorem emits_toIndex {v : TypedName} (hv : ⟨v.name, .scalar v.size⟩ ∈ known)
    (hcast : castable v.size) :
    Emits g castable fixed known lo (toIndex v) s fun known' n => ⟨n, .index⟩ ∈ known' :=
  emits_definition (fun _ => ⟨rfl, rfl, rfl, rfl⟩) fun _ => ⟨hv, hcast⟩

theorem reserves_nodeName (id : NodeId) (use : String) :
    Reserves g known (nodeName g id use) s fun hi n =>
      ∀ type, Numbered s.counter hi [⟨n, type⟩] := by
  unfold nodeName
  cases (g.node id).name with
  | some name => exact reserves_fresh _
  | none => exact reserves_fresh use

section Reads

variable (hneed : Gives g castable need ok)
include hneed

theorem emits_operand {id : NodeId} (hid : ok id) :
    Emits g castable fixed known lo (operand g need id) s fun known' o =>
      o ∈ known' ∧ o.type = g.valueType id :=
  (hneed hid).bind fun _ _ _ _ hn => emits_pure ⟨hn, rfl⟩

theorem emits_typedName {id : NodeId} (hid : ok id) (hscalar : g.isScalar id = true) :
    Emits g castable fixed known lo (typedName g need id) s fun known' v =>
      ⟨v.name, .scalar v.size⟩ ∈ known' ∧ v.size = g.elemSize id := by
  refine (hneed hid).bind fun n s₁ known₁ _ hn => emits_pure ⟨?_, rfl⟩
  rwa [g.valueType_scalar hscalar] at hn

theorem emits_operands {ids : List NodeId} : ∀ {known lo s}, (∀ id ∈ ids, ok id) →
    Emits g castable fixed known lo (operands g need ids) s fun known' os =>
      os ⊆ known' ∧ os.map Operand.type = ids.map g.valueType := by
  induction ids with
  | nil => exact fun _ => emits_pure (by simp)
  | cons id ids ih =>
    intro known lo s hids
    refine (emits_operand hneed (hids id (List.mem_cons_self ..))).bind
      fun o s₁ known₁ h₁ ⟨ho, htype⟩ => ?_
    refine (ih fun id hid => hids id (List.mem_cons_of_mem _ hid)).bind
      fun os s₂ known₂ h₂ ⟨hos, htypes⟩ => emits_pure ⟨?_, by simp [htype, htypes]⟩
    exact List.cons_subset.mpr ⟨h₂ ho, hos⟩

theorem emits_prepare {ids : List NodeId} : ∀ {known lo s}, (∀ id ∈ ids, ok id) →
    Emits g castable fixed known lo (prepare need ids) s fun _ _ => True := by
  induction ids with
  | nil => exact fun _ => emits_pure trivial
  | cons id ids ih =>
    intro known lo s hids
    exact (hneed (hids id (List.mem_cons_self ..))).bind fun _ _ _ _ _ =>
      ih fun id hid => hids id (List.mem_cons_of_mem _ hid)

variable (hcast : ∀ sz : ElemSize, sz.isSignedInteger = true → castable sz)
include hcast

theorem emits_indexValue {id : NodeId} (hid : g.IsIndex ok id) :
    Emits g castable fixed known lo (indexValue g need id) s fun known' n =>
      ⟨n, .index⟩ ∈ known' := by
  refine (emits_typedName hneed hid.avail hid.scalar).bind fun v _ _ _ ⟨hv, hsize⟩ => ?_
  exact emits_toIndex hv (hcast _ (by rw [hsize]; exact hid.size))

theorem emits_indexValues {ids : List NodeId} : ∀ {known lo s}, (∀ id ∈ ids, g.IsIndex ok id) →
    Emits g castable fixed known lo (indexValues g need ids) s fun known' is =>
      Indices (fun n type => ⟨n, type⟩ ∈ known') ids.length is := by
  induction ids with
  | nil => exact fun _ => emits_pure ⟨rfl, by simp⟩
  | cons id ids ih =>
    intro known lo s hids
    refine (emits_indexValue hneed hcast (hids id (List.mem_cons_self ..))).bind
      fun i s₁ known₁ h₁ hi => ?_
    refine (ih fun id hid => hids id (List.mem_cons_of_mem _ hid)).bind
      fun is s₂ known₂ h₂ ⟨hlength, his⟩ => emits_pure ⟨by simp [hlength], ?_⟩
    exact List.forall_mem_cons.mpr ⟨h₂ hi, his⟩

theorem emits_dimIndex {e : Entry} {d : Dim} (hd : g.DimValid e ok d) :
    Emits g castable fixed known lo (dimIndex g need d) s fun known' n =>
      ⟨n, .index⟩ ∈ known' := by
  cases d with
  | const k => exact emits_indexConstant k
  | node id => exact emits_indexValue hneed hcast hd
  | sym name =>
    refine emits_get_bind fun hs => ?_
    cases hfound : s.symbols.get? name with
    | some size => exact emits_pure (hs.symbol hfound)
    | none => exact emits_throw

theorem emits_dynamicSizes {e : Entry} {shape : Shape} : ∀ {known lo s},
    (∀ d ∈ shape, g.DimValid e ok d) →
    Emits g castable fixed known lo (dynamicSizes g need shape) s fun known' is =>
      Indices (fun n type => ⟨n, type⟩ ∈ known') (shape.countP fun d => !d.isStatic) is := by
  induction shape with
  | nil => exact fun _ => emits_pure ⟨rfl, by simp⟩
  | cons d ds ih =>
    intro known lo s hdims
    have hrest := fun d hd => hdims d (List.mem_cons_of_mem _ hd)
    refine emits_ite (fun hstatic => ?_) fun hstatic => ?_
    · simpa [hstatic] using ih hrest
    · refine (emits_dimIndex hneed hcast (hdims d (List.mem_cons_self ..))).bind
        fun i s₁ known₁ h₁ hi => ?_
      refine (ih hrest).bind fun is s₂ known₂ h₂ ⟨hlength, his⟩ => emits_pure ⟨?_, ?_⟩
      · simp [hlength, hstatic]
      · exact List.forall_mem_cons.mpr ⟨h₂ hi, his⟩

theorem emits_alloc {e : Entry} (sz : ElemSize) {shape : Shape}
    (hdims : ∀ d ∈ shape, g.DimValid e ok d) :
    Emits g castable fixed known lo (alloc g need sz shape) s fun known' o =>
      o ∈ known' ∧ o.type = bufferType sz shape := by
  refine (emits_dynamicSizes hneed hcast hdims).bind fun sizes s₁ known₁ _ ⟨hlength, hsizes⟩ => ?_
  refine emits_define (fun _ => ⟨rfl, rfl, rfl, rfl⟩) (fun _ => ⟨⟨rfl, hsizes⟩, ?_⟩)
    fun n _ _ _ hn => emits_pure ⟨hn, rfl⟩
  rw [unknownAxes?_bufferType, hlength]

end Reads

end LowerM

end TensorKernel
