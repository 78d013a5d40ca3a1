import Mathlib.Data.List.Pairwise
import TensorKernel.Proofs.Buffer.Scoping

/-!
# What statements do to buffers

A statement creates a buffer, makes a view of one, changes the elements of buffers, or only reads.
Whatever a statement names as an operand it reads or writes.

A view has the memory of the buffer that it is a view of: `Shares` follows the views that some
statements make.  Where every name is defined once, nothing that was created is a view.
-/

namespace TensorKernel

namespace Buffer

namespace Stmt

/-- The buffers whose elements a statement changes. -/
def writes : Stmt → List Name
  | store _ dst _ => [dst.name]
  | copy _ dst => [dst.name]
  | fill _ dst => [dst.name]
  | generic _ _ _ outs _ _ => outs.map Operand.name
  | reduce _ outs _ _ _ => outs.map Operand.name
  | _ => []

/-- The names that a statement reads, apart from the buffers whose elements it changes. -/
def reads : Stmt → List Name
  | store value _ indices => value :: indices
  | copy src _ => [src.name]
  | fill value _ => [value.name]
  | generic _ _ ins _ _ _ => ins.map Operand.name
  | reduce ins _ _ _ _ => ins.map Operand.name
  | s => s.operands

/-- The buffer that a statement creates. -/
def created? : Stmt → Option Name
  | alloc dst _ _ => some dst
  | alloca dst _ => some dst
  | _ => none

/-- The view that a statement makes, and the buffer that it is a view of. -/
def view? : Stmt → Option (Name × Name)
  | subView dst src _ _ _ _ => some (dst, src.name)
  | collapseShape dst src _ _ => some (dst, src.name)
  | _ => none

variable {s : Stmt} {n dst src : Name}

theorem exists_result_of_created (h : s.created? = some n) : ∃ type, ⟨n, type⟩ ∈ s.results := by
  cases s with
  | alloc _ _ type | alloca _ type =>
    cases h
    exact ⟨type, List.mem_singleton_self _⟩
  | _ => cases h

theorem exists_result_of_view (h : s.view? = some (dst, src)) :
    ∃ type, ⟨dst, type⟩ ∈ s.results := by
  cases s with
  | subView _ _ _ _ _ type | collapseShape _ _ _ type =>
    cases h
    exact ⟨type, List.mem_singleton_self _⟩
  | _ => cases h

theorem mem_reads_of_view (h : s.view? = some (dst, src)) : src ∈ s.reads := by
  cases s with
  | subView | collapseShape =>
    cases h
    simp [reads, operands]
  | _ => cases h

/-- A statement that creates a buffer writes nothing, and has no region. -/
theorem plain_of_created (h : s.created? = some n) : s.writes = [] ∧ s.body = [] := by
  cases s with
  | alloc | alloca => exact ⟨rfl, rfl⟩
  | _ => cases h

theorem view_of_created (h : s.created? = some n) : s.view? = none := by
  cases s with
  | alloc | alloca => rfl
  | _ => cases h

end Stmt

/-! ## Shared memory -/

/-- A name stands for the memory of a buffer, through views that some statements make. -/
inductive Shares (stmts : Stmt → Prop) (buffer : Name) : Name → Prop
  | self {n : Name} (same : n.key = buffer.key) : Shares stmts buffer n
  | view {s : Stmt} {n dst src : Name} (made : stmts s) (hview : s.view? = some (dst, src))
      (hsrc : Shares stmts buffer src) (same : n.key = dst.key) : Shares stmts buffer n

/-- A buffer that nothing reads shares its memory with no other name. -/
theorem Shares.key_eq {stmts : Stmt → Prop} {buffer n : Name}
    (hunread : ∀ s, stmts s → ∀ m ∈ s.reads, m.key ≠ buffer.key) (h : Shares stmts buffer n) :
    n.key = buffer.key := by
  induction h with
  | self same => exact same
  | view made hview _ _ ih => exact absurd ih (hunread _ made _ (Stmt.mem_reads_of_view hview))

/-- Different statements define different names, where every name is defined once. -/
theorem result_key_ne {block : List Stmt} (hnodup : ((definitions block).map Operand.key).Nodup)
    {s t : Stmt} (hs : s ∈ statements block) (ht : t ∈ statements block) (hne : s ≠ t)
    {d d' : Operand} (hd : d ∈ s.results) (hd' : d' ∈ t.results) : d.key ≠ d'.key := by
  rw [definitions, List.map_flatMap, List.nodup_flatMap] at hnodup
  have hsymm : Std.Symm (Function.onFun List.Disjoint fun s : Stmt =>
      (s.results ++ s.args).map Operand.key) := ⟨fun _ _ h _ hb ha => h ha hb⟩
  intro hkey
  apply hnodup.2.forall hs ht hne (List.mem_map_of_mem (List.mem_append_left _ hd))
  rw [hkey]
  exact List.mem_map_of_mem (List.mem_append_left _ hd')

/-- Nothing that was created is a view, where every name is defined once. -/
theorem created_key_ne_view {block : List Stmt}
    (hnodup : ((definitions block).map Operand.key).Nodup) {s t : Stmt}
    (hs : s ∈ statements block) (ht : t ∈ statements block) {n dst src : Name}
    (hcreated : s.created? = some n) (hview : t.view? = some (dst, src)) : dst.key ≠ n.key := by
  obtain ⟨type, hn⟩ := Stmt.exists_result_of_created hcreated
  obtain ⟨type', hdst⟩ := Stmt.exists_result_of_view hview
  have hne : t ≠ s := by
    intro same
    rw [same, Stmt.view_of_created hcreated] at hview
    cases hview
  exact result_key_ne hnodup ht hs hne hdst hn

end Buffer

end TensorKernel
