import Mathlib.Data.List.GetD
import Mathlib.Data.List.Perm.Basic
import TensorKernel.Shape

/-!
# Broadcasting

Two shapes are combined while some of their dimensions are unknown.  `Shape.broadcast?` only compares
dimensions as they are written, and it turns out to decide exactly what has to hold whatever the
unknown sizes are: two dimensions that are written differently can be told apart by the sizes of
their symbols and nodes, unless one of them is the constant one.  The counter-assignments are
`Sizes.uniform` and `Sizes.marking`.

Positions are counted from the last dimension (`fromLast`), and a shape has a one at every position
that it lacks.  In these terms both the check and the result of the code are pointwise
(`Shape.compatible_iff`, `Shape.fromLast_join`), which makes the combination of any number of shapes
independent of their order and grouping.

Nothing is said here about whether the sizes of an actual run are those of one assignment.
-/

namespace TensorKernel

/-! ## Positions from the end -/

/-- The member of a list at a position from its end; `one` stands at the positions it lacks. -/
def fromLast {α : Type} (one : α) (xs : List α) (axis : Nat) : α :=
  xs.reverse.getD axis one

theorem fromLast_map {α β : Type} (f : α → β) (one : α) (xs : List α) (axis : Nat) :
    fromLast (f one) (xs.map f) axis = f (fromLast one xs axis) := by
  simp only [fromLast, List.getD_eq_getElem?_getD, ← List.map_reverse, List.getElem?_map]
  cases xs.reverse[axis]? <;> rfl

/-- Lists of one length that agree from the end are equal. -/
theorem eq_of_fromLast {α : Type} {one : α} {xs ys : List α} (hlength : xs.length = ys.length)
    (h : ∀ axis, fromLast one xs axis = fromLast one ys axis) : xs = ys := by
  have hreverse : xs.reverse = ys.reverse := by
    apply List.ext_getElem
    · simp [hlength]
    · intro axis hx hy
      have haxis := h axis
      simpa only [fromLast, List.getD_eq_getElem _ _ hx, List.getD_eq_getElem _ _ hy] using haxis
  exact List.reverse_injective hreverse

/-! ## Sizes -/

/-- The sizes of the dimensions that are not constant. -/
structure Sizes where
  symbol : String → Nat
  node : NodeId → Nat

namespace Sizes

/-- One size for every dimension that is not constant. -/
def uniform (n : Nat) : Sizes := ⟨fun _ => n, fun _ => n⟩

/-- Two for one dimension, and three for all others. -/
def marking (d : Dim) : Sizes :=
  ⟨fun name => if Dim.sym name = d then 2 else 3, fun id => if Dim.node id = d then 2 else 3⟩

end Sizes

namespace Dim

/-- The size that a dimension stands for. -/
def extent (sizes : Sizes) : Dim → Int
  | const n => n
  | sym name => sizes.symbol name
  | node id => sizes.node id

@[simp]
theorem extent_const (sizes : Sizes) (n : Int) : (const n).extent sizes = n := rfl

@[simp]
theorem isOne_const_one : (const 1).isOne = true := rfl

theorem isOne_iff {d : Dim} : d.isOne = true ↔ d = const 1 := by
  simp [isOne]

theorem extent_uniform {d : Dim} (h : d.isStatic = false) (n : Nat) :
    d.extent (.uniform n) = n := by
  cases d with
  | const m => simp [isStatic] at h
  | sym name => rfl
  | node id => rfl

theorem extent_marking {d : Dim} (h : d.isStatic = false) (e : Dim) :
    d.extent (.marking e) = if d = e then 2 else 3 := by
  cases d with
  | const m => simp [isStatic] at h
  | sym name => simp only [extent, Sizes.marking]; split <;> rfl
  | node id => simp only [extent, Sizes.marking]; split <;> rfl

/-- The size of a dimension that is not constant can be made neither a given number nor one. -/
theorem exists_extent_ne {d : Dim} (h : d.isStatic = false) (n : Int) :
    ∃ sizes, d.extent sizes ≠ n ∧ d.extent sizes ≠ 1 := by
  by_cases hn : n = 2
  · refine ⟨.uniform 3, ?_⟩
    rw [extent_uniform h]
    omega
  · refine ⟨.uniform 2, ?_⟩
    rw [extent_uniform h]
    omega

/-- Dimensions that are written differently can be given sizes that do not fit together. -/
theorem exists_separating {l r : Dim} (hne : l ≠ r) (hl : l.isOne = false) (hr : r.isOne = false) :
    ∃ sizes, l.extent sizes ≠ r.extent sizes ∧ l.extent sizes ≠ 1 ∧ r.extent sizes ≠ 1 := by
  cases hlstatic : l.isStatic with
  | false =>
    cases hrstatic : r.isStatic with
    | false =>
      -- Neither is known: one of them becomes two and the other one three.
      refine ⟨.marking l, ?_⟩
      rw [extent_marking hlstatic, extent_marking hrstatic, if_pos rfl, if_neg hne.symm]
      omega
    | true =>
      obtain ⟨n, rfl⟩ : ∃ n, r = const n := by cases r <;> simp_all [isStatic]
      obtain ⟨sizes, hn, hone⟩ := exists_extent_ne hlstatic n
      exact ⟨sizes, hn, hone, by simpa [isOne] using hr⟩
  | true =>
    obtain ⟨n, rfl⟩ : ∃ n, l = const n := by cases l <;> simp_all [isStatic]
    cases hrstatic : r.isStatic with
    | false =>
      obtain ⟨sizes, hn, hone⟩ := exists_extent_ne hrstatic n
      exact ⟨sizes, hn.symm, by simpa [isOne] using hl, hone⟩
    | true =>
      -- Both are known, so any sizes will do.
      obtain ⟨m, rfl⟩ : ∃ m, r = const m := by cases r <;> simp_all [isStatic]
      exact ⟨.uniform 2, by simpa using hne, by simpa [isOne] using hl, by simpa [isOne] using hr⟩

/-- Dimensions may still be paired where they are replaced by others, if ones stay. -/
theorem compatible_map {l r : Dim} (h : l.compatible r = true) {f : Dim → Dim}
    (hone : f (.const 1) = .const 1) : (f l).compatible (f r) = true := by
  simp only [compatible, Bool.or_eq_true, beq_iff_eq, isOne_iff] at h ⊢
  rcases h with (rfl | rfl) | rfl
  · exact Or.inl (Or.inl rfl)
  · exact Or.inl (Or.inr hone)
  · exact Or.inr hone

/-- The check of two dimensions decides whether their sizes fit together, whatever they are. -/
theorem compatible_iff {l r : Dim} : l.compatible r = true ↔
    ∀ sizes, l.extent sizes = r.extent sizes ∨ l.extent sizes = 1 ∨ r.extent sizes = 1 := by
  constructor
  · intro h sizes
    simp only [compatible, Bool.or_eq_true, beq_iff_eq, isOne_iff] at h
    rcases h with (rfl | rfl) | rfl <;> simp
  · intro h
    by_contra hnot
    simp only [compatible, Bool.or_eq_true, beq_iff_eq, not_or, Bool.not_eq_true] at hnot
    obtain ⟨⟨hne, hl⟩, hr⟩ := hnot
    obtain ⟨sizes, hdistinct, hlone, hrone⟩ := exists_separating hne hl hr
    rcases h sizes with heq | heq | heq
    · exact hdistinct heq
    · exact hlone heq
    · exact hrone heq

end Dim

/-! ## The check and the result at each position -/

namespace Shape

/-- What a joined dimension is read as: what is read as a one gives way. -/
theorem apply_join {α : Type} [DecidableEq α] (f : Dim → α) {l r : Dim}
    (h : l.compatible r = true) :
    f (join l r) = if f l = f (.const 1) then f r else f l := by
  by_cases hl : l.isOne
  · obtain rfl := Dim.isOne_iff.mp hl
    simp [join]
  · rw [join, if_neg hl]
    split
    · next hone =>
      -- A symbol that is read as a one is only paired with itself and with ones.
      simp only [Dim.compatible, Bool.or_eq_true, beq_iff_eq, Dim.isOne_iff] at h
      rcases h with (rfl | rfl) | rfl
      · rfl
      · simp at hl
      · exact hone
    · rfl

theorem join_comm {l r : Dim} (h : l.compatible r = true) : join l r = join r l := by
  simp only [Dim.compatible, Bool.or_eq_true, beq_iff_eq, Dim.isOne_iff] at h
  by_cases hl : l = .const 1 <;> by_cases hr : r = .const 1 <;> simp_all [join, Dim.isOne]

theorem join_assoc (l m r : Dim) : join (join l m) r = join l (join m r) := by
  by_cases hl : l.isOne <;> simp [join, hl]

/-- Which of three dimensions are checked first does not matter. -/
theorem compatible_join (l m r : Dim) : (l.compatible m = true ∧ (join l m).compatible r = true) ↔
    (m.compatible r = true ∧ l.compatible (join m r) = true) := by
  simp only [Dim.compatible, Bool.or_eq_true, beq_iff_eq, Dim.isOne_iff, join]
  by_cases hl : l = .const 1 <;> by_cases hm : m = .const 1 <;> by_cases hr : r = .const 1 <;>
    simp_all
  grind

theorem alignedCompatible_iff : ∀ {ls rs : List Dim}, alignedCompatible ls rs = true ↔
    ∀ axis, (ls.getD axis (.const 1)).compatible (rs.getD axis (.const 1)) = true
  | [], rs => by simp [alignedCompatible, Dim.compatible]
  | l :: ls, [] => by simp [alignedCompatible, Dim.compatible]
  | l :: ls, r :: rs => by
    rw [alignedCompatible, Bool.and_eq_true, alignedCompatible_iff]
    constructor
    · rintro ⟨hhead, htail⟩ axis
      cases axis with
      | zero => exact hhead
      | succ axis => exact htail axis
    · exact fun h => ⟨h 0, fun axis => h (axis + 1)⟩

theorem getD_alignedJoin : ∀ (ls rs : List Dim) (axis : Nat),
    (alignedJoin ls rs).getD axis (.const 1) =
      join (ls.getD axis (.const 1)) (rs.getD axis (.const 1))
  | [], rs, axis => by simp [alignedJoin, join]
  | l :: ls, [], axis => by
    show (l :: ls).getD axis (.const 1) = _
    rw [List.getD_nil, join]
    split
    · next hone => exact Dim.isOne_iff.mp hone
    · rfl
  | l :: ls, r :: rs, 0 => rfl
  | l :: ls, r :: rs, axis + 1 => by
    simpa [alignedJoin] using getD_alignedJoin ls rs axis

theorem length_alignedJoin : ∀ ls rs : List Dim,
    (alignedJoin ls rs).length = max ls.length rs.length
  | [], rs => by simp [alignedJoin]
  | l :: ls, [] => by simp [alignedJoin]
  | l :: ls, r :: rs => by
    simp only [alignedJoin, List.length_cons, length_alignedJoin ls rs]
    omega

/-- The check is made at every position; where a shape has no dimension there is nothing to check. -/
theorem compatible_iff {l r : Shape} : compatible l r = true ↔
    ∀ axis, (fromLast (.const 1) l axis).compatible (fromLast (.const 1) r axis) = true :=
  alignedCompatible_iff

theorem compatible_comm (l r : Shape) : compatible l r = compatible r l := by
  rw [Bool.eq_iff_iff, compatible_iff, compatible_iff]
  simp only [Dim.compatible_comm]

theorem broadcast?_eq_some_iff {l r s : Shape} : broadcast? l r = some s ↔
    compatible l r = true ∧ s.length = max l.length r.length ∧
      ∀ axis, fromLast (.const 1) s axis =
        join (fromLast (.const 1) l axis) (fromLast (.const 1) r axis) := by
  have hlength : (alignedJoin l.reverse r.reverse).reverse.length = max l.length r.length := by
    simp [length_alignedJoin]
  have haxis (axis : Nat) : fromLast (.const 1) (alignedJoin l.reverse r.reverse).reverse axis =
      join (fromLast (.const 1) l axis) (fromLast (.const 1) r axis) := by
    simp only [fromLast, List.reverse_reverse, getD_alignedJoin]
  rw [broadcast?]
  split
  · next h =>
    constructor
    · rintro hs
      obtain rfl := Option.some.inj hs
      exact ⟨h, hlength, haxis⟩
    · rintro ⟨-, hs, hsaxis⟩
      exact congrArg some (eq_of_fromLast (hlength.trans hs.symm) fun axis =>
        (haxis axis).trans (hsaxis axis).symm)
  · next h => simp [h]

theorem broadcast?_isSome {l r : Shape} : (broadcast? l r).isSome = true ↔ compatible l r = true := by
  rw [broadcast?]
  split <;> simp_all

/-! ## Known sizes -/

/-- The sizes that the dimensions of a shape stand for. -/
def extents (sizes : Sizes) (shape : Shape) : List Int :=
  shape.map (Dim.extent sizes)

theorem fromLast_extents (sizes : Sizes) (shape : Shape) (axis : Nat) :
    fromLast 1 (shape.extents sizes) axis = (fromLast (.const 1) shape axis).extent sizes :=
  fromLast_map (Dim.extent sizes) (.const 1) shape axis

end Shape

/-- Sizes broadcast if, from the last one on, the sizes at one position are equal or one is one. -/
def Broadcastable (l r : List Int) : Prop :=
  ∀ axis, fromLast 1 l axis = fromLast 1 r axis ∨ fromLast 1 l axis = 1 ∨ fromLast 1 r axis = 1

/-- The sizes that others broadcast to: as many as the longer one has, and a one gives way. -/
structure IsBroadcast (l r s : List Int) : Prop where
  rank : s.length = max l.length r.length
  size : ∀ axis, fromLast 1 s axis =
    if fromLast 1 l axis = 1 then fromLast 1 r axis else fromLast 1 l axis

namespace Shape

/-- The check decides whether two shapes broadcast whatever their unknown sizes are. -/
theorem broadcast?_isSome_iff (l r : Shape) : (broadcast? l r).isSome = true ↔
    ∀ sizes, Broadcastable (l.extents sizes) (r.extents sizes) := by
  simp only [broadcast?_isSome, compatible_iff, Dim.compatible_iff, Broadcastable, fromLast_extents]
  exact forall_comm

/-- However dimensions are read as sizes, the sizes of two shapes broadcast to those of the result. -/
theorem isBroadcast_map {l r s : Shape} (h : broadcast? l r = some s) {f : Dim → Int}
    (hone : f (.const 1) = 1) : IsBroadcast (l.map f) (r.map f) (s.map f) := by
  obtain ⟨hcompatible, hlength, haxis⟩ := broadcast?_eq_some_iff.mp h
  constructor
  · simpa using hlength
  · intro axis
    rw [← hone, fromLast_map, fromLast_map, fromLast_map, haxis]
    exact apply_join f (compatible_iff.mp hcompatible axis)

/-- The resulting shape has the sizes that the sizes of the two shapes broadcast to. -/
theorem isBroadcast_extents {l r s : Shape} (h : broadcast? l r = some s) (sizes : Sizes) :
    IsBroadcast (l.extents sizes) (r.extents sizes) (s.extents sizes) :=
  isBroadcast_map h rfl

/-- Shapes still broadcast where dimensions are replaced by others, if ones stay. -/
theorem broadcast?_map {l r s : Shape} (h : broadcast? l r = some s) {f : Dim → Dim}
    (hone : f (.const 1) = .const 1) :
    broadcast? (l.map f) (r.map f) = some (s.map f) := by
  obtain ⟨hcompatible, hlength, haxis⟩ := broadcast?_eq_some_iff.mp h
  have hread (shape : Shape) (axis : Nat) :
      fromLast (.const 1) (shape.map f) axis = f (fromLast (.const 1) shape axis) := by
    have h := fromLast_map f (.const 1) shape axis
    rwa [hone] at h
  refine broadcast?_eq_some_iff.mpr ⟨compatible_iff.mpr fun axis => ?_, by simpa using hlength,
    fun axis => ?_⟩
  · rw [hread, hread]
    exact Dim.compatible_map (compatible_iff.mp hcompatible axis) hone
  · rw [hread, hread, hread, haxis, apply_join f (compatible_iff.mp hcompatible axis), join, hone]
    simp only [Dim.isOne_iff]

/-! ## Any number of shapes -/

theorem broadcast?_comm (l r : Shape) : broadcast? l r = broadcast? r l := by
  refine Option.ext fun s => ?_
  rw [broadcast?_eq_some_iff, broadcast?_eq_some_iff, compatible_comm r l, Nat.max_comm r.length]
  refine and_congr_right fun h => and_congr_right fun _ => forall_congr' fun axis => ?_
  rw [join_comm (compatible_iff.mp h axis)]

theorem broadcast?_nil_left (r : Shape) : broadcast? [] r = some r := by
  simp [broadcast?, compatible, alignedCompatible, alignedJoin]

/-- Three shapes that are combined from the left can be combined from the right. -/
theorem exists_broadcast?_right {l m r t s : Shape} (hlm : broadcast? l m = some t)
    (htr : broadcast? t r = some s) : ∃ u, broadcast? m r = some u ∧ broadcast? l u = some s := by
  obtain ⟨hlm, htl, ht⟩ := broadcast?_eq_some_iff.mp hlm
  obtain ⟨htr, hsl, hs⟩ := broadcast?_eq_some_iff.mp htr
  have hall (axis : Nat) := (compatible_join _ _ _).mp
    ⟨compatible_iff.mp hlm axis, ht axis ▸ compatible_iff.mp htr axis⟩
  obtain ⟨u, hu⟩ := Option.isSome_iff_exists.mp
    (broadcast?_isSome.mpr (compatible_iff.mpr fun axis => (hall axis).1))
  obtain ⟨-, hul, huaxis⟩ := broadcast?_eq_some_iff.mp hu
  have hlu : compatible l u = true := compatible_iff.mpr fun axis => by
    rw [huaxis]
    exact (hall axis).2
  refine ⟨u, hu, broadcast?_eq_some_iff.mpr ⟨hlu, by omega, fun axis => ?_⟩⟩
  rw [hs, ht, huaxis, join_assoc]

theorem broadcast?_assoc (l m r : Shape) :
    (broadcast? l m).bind (fun t => broadcast? t r) =
      (broadcast? m r).bind (fun u => broadcast? l u) := by
  refine Option.ext fun s => ?_
  simp only [Option.bind_eq_some_iff]
  constructor
  · rintro ⟨t, hlm, htr⟩
    exact exists_broadcast?_right hlm htr
  · rintro ⟨u, hmr, hlu⟩
    -- The same from the other end.
    rw [broadcast?_comm] at hmr hlu
    obtain ⟨t, hml, hrt⟩ := exists_broadcast?_right hmr hlu
    rw [broadcast?_comm] at hml hrt
    exact ⟨t, hml, hrt⟩

end Shape

/-- In which order and grouping several shapes are combined, two at a time. -/
inductive Combination where
  | shape (s : Shape)
  | pair (l r : Combination)

namespace Combination

/-- The shapes that are combined, from left to right. -/
def leaves : Combination → List Shape
  | shape s => [s]
  | pair l r => l.leaves ++ r.leaves

/-- The shape of the combination, if every two results broadcast. -/
def shape? : Combination → Option Shape
  | shape s => some s
  | pair l r => l.shape?.bind fun s => r.shape?.bind fun t => Shape.broadcast? s t

/-- One shape after another is combined with what comes of the ones after it. -/
def chain (shapes : List Shape) (last : Option Shape) : Option Shape :=
  shapes.foldr (fun s rest => rest.bind fun t => Shape.broadcast? s t) last

theorem chain_singleton (s : Shape) : chain [s] (some []) = some s := by
  rw [chain, List.foldr_cons, List.foldr_nil, Option.bind_some, Shape.broadcast?_comm,
    Shape.broadcast?_nil_left]

theorem chain_pair (l r : Shape) : chain [l, r] (some []) = Shape.broadcast? l r := by
  have hlast : chain [l, r] (some []) = (chain [r] (some [])).bind (Shape.broadcast? l) := rfl
  rw [hlast, chain_singleton, Option.bind_some]

/-- Every grouping comes to the same as the chain. -/
theorem shape?_bind_eq_chain (t : Combination) (last : Option Shape) :
    (t.shape?.bind fun s => last.bind fun u => Shape.broadcast? s u) = chain t.leaves last := by
  induction t generalizing last with
  | shape s => rfl
  | pair l r ihl ihr =>
    have happend : chain (l.leaves ++ r.leaves) last = chain l.leaves (chain r.leaves last) :=
      List.foldr_append
    rw [leaves, happend, ← ihr, ← ihl]
    show (l.shape?.bind fun s => r.shape?.bind fun t => Shape.broadcast? s t).bind _ = _
    cases l.shape? with
    | none => rfl
    | some s =>
      cases r.shape? with
      | none => rfl
      | some t =>
        cases last with
        | none => simp
        | some u => exact Shape.broadcast?_assoc s t u

theorem chain_perm {shapes shapes' : List Shape} (h : shapes.Perm shapes') (last : Option Shape) :
    chain shapes last = chain shapes' last := by
  have hswap : LeftCommutative fun (s : Shape) (rest : Option Shape) =>
      rest.bind fun t => Shape.broadcast? s t := by
    constructor
    intro s t rest
    cases rest with
    | none => rfl
    | some u =>
      show (Shape.broadcast? t u).bind (fun v => Shape.broadcast? s v) =
        (Shape.broadcast? s u).bind fun v => Shape.broadcast? t v
      rw [← Shape.broadcast?_assoc, ← Shape.broadcast?_assoc, Shape.broadcast?_comm]
  exact h.foldr_eq last

theorem shape?_eq_chain (t : Combination) : t.shape? = chain t.leaves (some []) := by
  rw [← shape?_bind_eq_chain]
  cases t.shape? with
  | none => rfl
  | some s => exact ((Shape.broadcast?_comm s []).trans (Shape.broadcast?_nil_left s)).symm

/-- Every dimension may be replaced before or after shapes are combined, if ones stay. -/
theorem chain_map {f : Dim → Dim} (hone : f (.const 1) = .const 1) {shapes : List Shape}
    {s : Shape} (h : chain shapes (some []) = some s) :
    chain (shapes.map (List.map f)) (some []) = some (s.map f) := by
  induction shapes generalizing s with
  | nil =>
    obtain rfl := Option.some.inj h
    rfl
  | cons shape shapes ih =>
    obtain ⟨rest, hrest, hs⟩ := Option.bind_eq_some_iff.mp
      (show (chain shapes (some [])).bind _ = some s from h)
    show (chain (shapes.map (List.map f)) (some [])).bind _ = _
    rw [ih hrest]
    exact Shape.broadcast?_map hs hone

end Combination

namespace Shape

/--
Two shapes have a combined shape if and only if their sizes broadcast for all sizes of the unknown
dimensions.  The combined shape then has the sizes that they broadcast to.  Shapes that are combined
in another order or grouping have the same combined shape, or none in either case.
-/
theorem broadcast?_sound_complete :
    (∀ l r : Shape, ((broadcast? l r).isSome = true ↔
        ∀ sizes, Broadcastable (l.extents sizes) (r.extents sizes)) ∧
      ∀ s, broadcast? l r = some s → ∀ sizes,
        IsBroadcast (l.extents sizes) (r.extents sizes) (s.extents sizes)) ∧
    ∀ t t' : Combination, t.leaves.Perm t'.leaves → t.shape? = t'.shape? := by
  refine ⟨fun l r => ⟨broadcast?_isSome_iff l r, fun s h sizes => isBroadcast_extents h sizes⟩, ?_⟩
  intro t t' h
  rw [t.shape?_eq_chain, t'.shape?_eq_chain]
  exact Combination.chain_perm h _

/-- A symbol is paired with a one, and the other shape has no second dimension from the last. -/
example : broadcast? [.sym "M", .const 1] [.const 3] = some [.sym "M", .const 3] := by decide

end Shape

end TensorKernel
