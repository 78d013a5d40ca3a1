import TensorKernel.Build.Operand
import TensorKernel.Proofs.Graph.Operators

/-!
# Elements, slices and copies

Reading or changing an element of a tensor, selecting a region of it, and copying a value give a
valid graph in which the result is available, as `Graph.Produces` says.  The result of a function
is the one node that is computed after it was added; `Valid.computeResult` treats it.
-/

namespace TensorKernel

/-- The shape of a slice is that of the region without ones in front. -/
theorem BuildM.trims_trimmedShape {sizes : Shape} (h : sizes ≠ []) :
    sizes.Trims (trimmedShape sizes) := by
  have hprefix : sizes.dropLast.takeWhile Dim.isOne <+: sizes :=
    (List.takeWhile_prefix _).trans (List.dropLast_prefix _)
  refine ⟨_, rfl, ?_, fun d hd => ?_⟩
  · have hle := (List.takeWhile_prefix (l := sizes.dropLast) Dim.isOne).length_le
    have hpos := List.length_pos_iff.mpr h
    rw [List.length_dropLast] at hle
    omega
  · rw [← List.prefix_iff_eq_take.mp hprefix] at hd
    exact List.all_eq_true.mp List.all_takeWhile d hd

namespace Graph

variable {g : Graph} {e : Entry}

theorem produces_getItem (hv : g.Valid e) {target : NodeId} {indices : List NodeId}
    (htarget : g.Available e target) (starget : g.isScalar target = false)
    (hindices : ∀ id ∈ indices, g.IsIndex (g.Available e) id)
    (rank : indices.length = (g.shape target).length) :
    g.Produces e (g.compute none (.scalar (g.elemSize target)) .getItem (target :: indices))
      (.scalar (g.elemSize target)) := by
  have hext := compute_extends g none (.scalar (g.elemSize target)) .getItem (target :: indices)
  have htype := type_compute_scalar g (g.elemSize target) .getItem (target :: indices)
  have hlt := htarget.lt hv.entry
  refine produces_compute hv rfl (by simp [KernelType.shape])
    (.getItem htarget ?_ (fun id hid => ?_) ?_ (isScalar_of_type htype) ?_)
  · rw [hext.isScalar_eq hlt, starget]
  · exact hext.isIndex (fun _ h => h.lt hv.entry) (hindices id hid)
  · rw [hext.shape_eq hlt, rank]
  · rw [elemSize_of_type htype, hext.elemSize_eq hlt]
    rfl

theorem produces_setItem (hv : g.Valid e) {name : Option String} {kind : NodeKind}
    {target value : NodeId} {indices : List NodeId}
    (hkind : Node.type ⟨name, kind, none, []⟩ = g.type target)
    (htarget : g.Available e target) (starget : g.isScalar target = false)
    (hvalue : g.Available e value) (svalue : g.isScalar value = true)
    (hindices : ∀ id ∈ indices, g.IsIndex (g.Available e) id)
    (rank : indices.length = (g.shape target).length) :
    g.Produces e (g.compute name kind .setItem (target :: value :: indices)) (g.type target) := by
  have hext := compute_extends g name kind .setItem (target :: value :: indices)
  have htype := type_compute g .setItem (target :: value :: indices) hkind
  have hlt := htarget.lt hv.entry
  refine produces_compute hv hkind (htarget.dims hv)
    (.setItem htarget ?_ hvalue ?_ (fun id hid => ?_) ?_ ?_)
  · rw [hext.isScalar_eq hlt, starget]
  · rw [hext.isScalar_eq (hvalue.lt hv.entry), svalue]
  · exact hext.isIndex (fun _ h => h.lt hv.entry) (hindices id hid)
  · rw [hext.shape_eq hlt, rank]
  · rw [htype, hext.type_eq hlt]

theorem produces_slice (hv : g.Valid e) {target : NodeId} {selected : List SliceIndex}
    {sizes : Shape} (htarget : g.Available e target) (starget : g.isScalar target = false)
    (hselected : ∀ i ∈ selected, ∀ id ∈ i.nodes, g.IsIndex (g.Available e) id)
    (selectedLe : selected.length ≤ (g.shape target).length)
    (rank : sizes.length = (g.shape target).length) (hrank : g.shape target ≠ [])
    (hsizes : ∀ d ∈ sizes, g.DimValid e (g.Available e) d) :
    g.Produces e (g.compute none (.tensor (g.elemSize target) (BuildM.trimmedShape sizes))
      (.slice selected sizes) (target :: selected.flatMap SliceIndex.nodes))
      (.tensor (g.elemSize target) (BuildM.trimmedShape sizes)) := by
  have hext := compute_extends g none (.tensor (g.elemSize target) (BuildM.trimmedShape sizes))
    (.slice selected sizes) (target :: selected.flatMap SliceIndex.nodes)
  have htype := type_compute_tensor g (g.elemSize target) (BuildM.trimmedShape sizes)
    (.slice selected sizes) (target :: selected.flatMap SliceIndex.nodes)
  have hlt := htarget.lt hv.entry
  have hne : sizes ≠ [] := by
    intro h
    rw [h] at rank
    exact hrank (List.length_eq_zero_iff.mp rank.symm)
  refine produces_compute hv rfl (fun d hd => hsizes d (List.mem_of_mem_drop hd))
    (.slice htarget ?_ (fun i hi id hid => ?_) ?_ ?_ (fun d hd => ?_) ?_
      (isScalar_of_type htype) ?_)
  · rw [hext.isScalar_eq hlt, starget]
  · exact hext.isIndex (fun _ h => h.lt hv.entry) (hselected i hi id hid)
  · rw [hext.shape_eq hlt]
    exact selectedLe
  · rw [hext.shape_eq hlt, rank]
  · exact hext.dimValid (fun _ h => h.lt hv.entry) (hsizes d hd)
  · rw [shape_of_type htype]
    exact BuildM.trims_trimmedShape hne
  · rw [elemSize_of_type htype, hext.elemSize_eq hlt]
    rfl

/-- A variable is copied in either way, depending on whether it is assigned again. -/
theorem copyKind_cases (again : Bool) : (if again then OpKind.deepCopy else .copy) = .copy ∨
    (if again then OpKind.deepCopy else .copy) = .deepCopy := by
  cases again
  · exact Or.inl rfl
  · exact Or.inr rfl

theorem produces_copy (hv : g.Valid e) {name : Option String} {kind : NodeKind} {op : OpKind}
    {src : NodeId} {ty : KernelType} (hkind : Node.type ⟨name, kind, none, []⟩ = ty)
    (hop : op = .copy ∨ op = .deepCopy) (hsrc : g.Available e src)
    (same : ty.sameShape (g.type src) = true) :
    g.Produces e (g.compute name kind op [src]) ty := by
  have hext := compute_extends g name kind op [src]
  have htype := type_compute g op [src] hkind
  refine produces_compute hv hkind ?_ (.copy hop hsrc ?_)
  · rw [(shape_eq_of_sameShape same).2]
    exact hsrc.dims hv
  · rw [htype, hext.type_eq (hsrc.lt hv.entry)]
    exact same

/-! ## The declared result -/

/-- Computing a node that was set apart changes nothing that was available. -/
theorem embeds_addOp_result {dst : NodeId} (hdst : e.result dst)
    (hproducer : (g.node dst).producer = none) (op : OpKind) (inputs : List NodeId) :
    Embeds g e (g.addOp op inputs [dst]).2 e .identity where
  node_lt {id} hid := by rwa [Relocation.identity_node, addOp_nodes_size]
  kind {id} hid := by rw [Relocation.identity_node, Relocation.identity_nodeKind, addOp_kind]
  producer {id o} h := by
    rw [Relocation.identity_node, addOp_producer, if_neg, h]
    · rfl
    · rintro ⟨hmem, -⟩
      obtain rfl := List.mem_singleton.mp hmem
      rw [hproducer] at h
      cases h
  hole {id} hid := by
    have hne : id ∉ [dst] := fun hmem => hid.notResult (List.mem_singleton.mp hmem ▸ hdst)
    refine ⟨?_, hid.notGiven, hid.notResult, ?_, ?_⟩
    · rw [Relocation.identity_node, addOp_nodes_size]
      exact hid.lt
    · rw [Relocation.identity_node, addOp_producer, if_neg fun h => hne h.1, hid.producer]
    · simpa only [Node.constant?, Relocation.identity_node, addOp_kind] using hid.constant
  op {o} ho := by
    rw [Relocation.identity_op, Relocation.identity_opData, addOp_op, if_neg (Nat.ne_of_lt ho)]

theorem addOp_type (op : OpKind) (inputs outputs : List NodeId) (id : NodeId) :
    (g.addOp op inputs outputs).2.type id = g.type id := by
  simp only [type, Node.type, addOp_kind]

/-- The declared result is computed by a copy of the returned value. -/
theorem Valid.computeResult (hv : g.Valid e) {dst src : NodeId} {op : OpKind}
    (hdst : e.result dst) (hproducer : (g.node dst).producer = none)
    (hop : op = .copy ∨ op = .deepCopy) (hsrc : g.Available e src)
    (same : (g.type dst).sameShape (g.type src) = true) :
    (g.addOp op [src] [dst]).2.Valid e ∧ (g.addOp op [src] [dst]).2.Available e dst := by
  have emb := embeds_addOp_result hdst hproducer op [src]
  have hc := hv.coherent.addOp op [src] dst
  have hsrc' := emb.available hv.coherent hv.entry hsrc
  have htype : ∀ id, (g.addOp op [src] [dst]).2.type id = g.type id := addOp_type op [src] [dst]
  have hresult : (g.addOp op [src] [dst]).2.Available e dst := by
    have hdstLt := (hv.entry.result hdst).1
    have hnew : ((g.addOp op [src] [dst]).2.node dst).producer = some ⟨g.ops.size⟩ := by
      rw [addOp_producer, if_pos ⟨List.mem_singleton_self dst, hdstLt⟩]
    -- The copy is an operator like any other, once its source is seen to be available still.
    refine Computes.available hc hnew ⟨fun d hd => ?_, ?_⟩
    · have hshape : (g.addOp op [src] [dst]).2.shape dst = g.shape src :=
        (shape_of_type (htype dst)).trans (shape_eq_of_sameShape same).2
      rw [hshape] at hd
      have hkeep : ∀ id, g.Available e id → (g.addOp op [src] [dst]).2.Available e id :=
        fun _ h => emb.available hv.coherent hv.entry h
      have hd' := emb.dimValid (fun _ h => h.lt hv.entry) hkeep (fun _ h => h) (hsrc.dims hv d hd)
      rwa [Relocation.identity_dim] at hd'
    · rw [addOp_op, if_pos rfl]
      exact .copy hop hsrc' (by rw [htype, htype]; exact same)
  refine ⟨⟨hc, ⟨fun h => ?_, fun {id} h => ?_, fun h => ?_, fun h d hd => ?_, fun h => ?_⟩,
    fun id hid => ?_⟩, hresult⟩
  · rw [addOp_nodes_size]
    exact hv.entry.lt h
  · have hne : id ∉ [dst] := fun hmem =>
      (hv.entry.result hdst).2.1 (List.mem_singleton.mp hmem ▸ h)
    rw [addOp_producer, if_neg fun h' => hne h'.1, hv.entry.producer h]
  · simpa only [Node.constant?, addOp_kind] using hv.entry.constant h
  · rw [show (g.addOp op [src] [dst]).2.shape _ = g.shape _ from shape_of_type (htype _)] at hd
    exact hv.entry.dims h d hd
  · obtain ⟨hlt, hgiven, hconstant⟩ := hv.entry.result h
    rw [addOp_nodes_size]
    exact ⟨hlt, hgiven, by simpa only [Node.constant?, addOp_kind] using hconstant⟩
  · rw [addOp_nodes_size] at hid
    rcases hv.classified id hid with h | h | h
    · exact Or.inl (emb.available hv.coherent hv.entry h)
    -- Only the result itself changes its class: it waited, and now it is available.
    · by_cases hid' : id = dst
      · exact Or.inl (hid' ▸ hresult)
      · refine Or.inr (Or.inl ⟨h.1, ?_⟩)
        rw [addOp_producer, if_neg fun h' => hid' (List.mem_singleton.mp h'.1), h.2]
    · exact Or.inr (Or.inr (emb.blocked hv.coherent hv.entry
        (fun h => emb.available hv.coherent hv.entry h) h))

end Graph

end TensorKernel
