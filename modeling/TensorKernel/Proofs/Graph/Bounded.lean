import TensorKernel.Proofs.Graph.Operators
import TensorKernel.Proofs.Graph.Splice

/-!
# Constant dimensions are sizes

A constant dimension is written in an annotation or is the length of a slice, and both are checked
where they enter a graph: no constant is negative, and none exceeds the greatest one.  Operators and
calls only pass dimensions on.
-/

namespace TensorKernel

/-- A constant that may be the size of an axis.  Other dimensions are not restricted. -/
def Dim.Bounded : Dim → Prop
  | .const n => 0 ≤ n ∧ n ≤ Dim.maxConst
  | _ => True

/-- Every constant dimension of a type is a size. -/
def KernelType.Bounded (ty : KernelType) : Prop :=
  ∀ d ∈ ty.shape, d.Bounded

/-- Every constant dimension of a node is a size. -/
def Graph.Bounded (g : Graph) : Prop :=
  ∀ id, (g.type id).Bounded

theorem KernelType.bounded_scalar (sz : ElemSize) : (KernelType.scalar sz).Bounded :=
  fun _ hd => by cases hd

/-- Operands pass their dimensions on to the result. -/
theorem KernelType.Bounded.broadcast {l r : KernelType} (hl : l.Bounded) (hr : r.Bounded) {s : Shape}
    (h : Shape.broadcast? l.shape r.shape = some s) : ∀ d ∈ s, d.Bounded := by
  obtain ⟨-, -, hmem⟩ := Shape.broadcast?_eq_some h
  exact fun d hd => (hmem d hd).elim (hl d) (hr d)

namespace Graph.Bounded

variable {g : Graph}

theorem empty : Graph.empty.Bounded :=
  fun _ => KernelType.bounded_scalar _

theorem addNode (h : g.Bounded) (name : Option String) {kind : NodeKind}
    (hkind : (Node.type ⟨name, kind, none, []⟩).Bounded) : (g.addNode name kind).2.Bounded := by
  intro id
  rw [type, addNode_node]
  split
  · exact hkind
  · exact h id

theorem addOfType (h : g.Bounded) (name : Option String) {ty : KernelType} (hty : ty.Bounded) :
    (g.addOfType name ty).2.Bounded := by
  obtain ⟨kind, hadd, htype, -⟩ := g.addOfType_eq_addNode name ty
  rw [hadd]
  exact h.addNode name (htype none [] ▸ hty)

theorem addOp (h : g.Bounded) (kind : OpKind) (inputs outputs : List NodeId) :
    (g.addOp kind inputs outputs).2.Bounded := by
  intro id
  have htype : (g.addOp kind inputs outputs).2.type id = g.type id := by
    simp only [type, Node.type, addOp_kind]
  exact htype ▸ h id

theorem compute (h : g.Bounded) (name : Option String) {kind : NodeKind} (op : OpKind)
    (inputs : List NodeId) (hkind : (Node.type ⟨name, kind, none, []⟩).Bounded) :
    (g.compute name kind op inputs).2.Bounded :=
  (h.addNode name hkind).addOp op inputs _

/-- A callee keeps its constants, and its symbols become dimensions that are bounded. -/
theorem splice {h : Graph} (hg : g.Bounded) (hh : h.Bounded) {symbol : String → Dim}
    (hsymbol : ∀ name, (symbol name).Bounded) : (g.splice h symbol).2.Bounded := by
  intro id
  by_cases hsize : id.index < (g.splice h symbol).2.nodes.size
  · rcases splice_node_cases hsize with hlt | ⟨inner, hinner, rfl⟩
    · rw [type, splice_node_of_lt g h symbol hlt]
      exact hg id
    · rw [type, splice_node_relocated g h symbol hinner]
      rw [Relocation.nodeData_type]
      intro d hd
      rw [Relocation.shape_type] at hd
      obtain ⟨d', hd', rfl⟩ := List.mem_map.mp hd
      cases d' with
      | const n => exact hh inner _ hd'
      | sym name => exact hsymbol name
      | node id => trivial
  · rw [type, node_of_size_le (Nat.le_of_not_lt hsize)]
    exact KernelType.bounded_scalar _

end Graph.Bounded

end TensorKernel
