import Mathlib.Data.List.Forall2

/-!
# Steps that may fail

What follows from the success of a sequence of steps, and of a step for every member of a list.
-/

namespace TensorKernel

variable {ε α β : Type}

/-- A sequence of two steps succeeds if both of them do. -/
theorem exists_of_bind_ok {x : Except ε α} {f : α → Except ε β} {b : β} (h : x >>= f = .ok b) :
    ∃ a, x = .ok a ∧ f a = .ok b := by
  cases x with
  | error err => cases h
  | ok a => exact ⟨a, rfl, h⟩

theorem bind_of_ok {x : Except ε α} {f : α → Except ε β} {a : α} {y : Except ε β} (hx : x = .ok a)
    (hf : f a = y) : x >>= f = y := by
  subst hx
  exact hf

theorem exists_of_map_ok {x : Except ε α} {f : α → β} {b : β} (h : x.map f = .ok b) :
    ∃ a, x = .ok a ∧ f a = b := by
  cases x with
  | error err => cases h
  | ok a => exact ⟨a, rfl, Except.ok.inj h⟩

/-- A result that is kept is a success. -/
theorem ok_of_toOption {x : Except ε α} {a : α} (h : x.toOption = some a) :
    x = .ok a := by
  cases x with
  | error err => cases h
  | ok b => exact congrArg Except.ok (Option.some.inj h)

theorem exists_of_isOk {x : Except ε α} (h : x.isOk = true) : ∃ a, x = .ok a := by
  cases x with
  | error err => cases h
  | ok a => exact ⟨a, rfl⟩

/-- A result that passes a check is a success. -/
theorem exists_of_any_toOption {x : Except ε α} {p : α → Bool} (h : x.toOption.any p = true) :
    ∃ a, x = .ok a ∧ p a = true := by
  cases x with
  | error err => cases h
  | ok a => exact ⟨a, rfl, h⟩

/-- The results of a successful list belong to its members. -/
theorem forall₂_of_mapM {f : α → Except ε β} {xs : List α} : ∀ {ys : List β},
    xs.mapM f = .ok ys → List.Forall₂ (fun x y => f x = .ok y) xs ys := by
  induction xs with
  | nil =>
    intro ys h
    obtain rfl := Except.ok.inj h
    exact .nil
  | cons x xs ih =>
    intro ys h
    rw [List.mapM_cons] at h
    obtain ⟨y, hy, h⟩ := exists_of_bind_ok h
    obtain ⟨rest, hrest, h⟩ := exists_of_bind_ok h
    obtain rfl := Except.ok.inj h
    exact .cons hy (ih hrest)

/-- A list is successful if its members are. -/
theorem mapM_of_forall₂ {f : α → Except ε β} {xs : List α} {ys : List β}
    (h : List.Forall₂ (fun x y => f x = .ok y) xs ys) : xs.mapM f = .ok ys := by
  induction h with
  | nil => rfl
  | cons hy _ ih => exact List.mapM_cons.trans (bind_of_ok hy (bind_of_ok ih rfl))

/-- A list of results has one member for each argument. -/
theorem length_of_mapM_ok {f : α → Except ε β} {xs : List α} {ys : List β}
    (h : xs.mapM f = .ok ys) : ys.length = xs.length :=
  (forall₂_of_mapM h).length_eq.symm

/-- Every result of a successful list is that of a member. -/
theorem exists_of_mem_mapM {f : α → Except ε β} {xs : List α} {ys : List β}
    (h : xs.mapM f = .ok ys) : ∀ y ∈ ys, ∃ x ∈ xs, f x = .ok y := by
  have hall := forall₂_of_mapM h
  clear h
  induction hall with
  | nil => exact fun y hy => by cases hy
  | @cons x y xs ys hxy hrest ih =>
    intro y' hy'
    rcases List.mem_cons.mp hy' with rfl | hy'
    · exact ⟨x, List.mem_cons_self .., hxy⟩
    · obtain ⟨x', hx', heq⟩ := ih y' hy'
      exact ⟨x', List.mem_cons_of_mem _ hx', heq⟩

/-- Every member of a successful list has a result. -/
theorem exists_ok_of_mem {f : α → Except ε β} {xs : List α} {ys : List β}
    (h : xs.mapM f = .ok ys) : ∀ x ∈ xs, ∃ y ∈ ys, f x = .ok y := by
  have hall := forall₂_of_mapM h
  clear h
  induction hall with
  | nil => exact fun x hx => by cases hx
  | @cons x y xs ys hxy hrest ih =>
    intro x' hx'
    rcases List.mem_cons.mp hx' with rfl | hx'
    · exact ⟨y, List.mem_cons_self .., hxy⟩
    · obtain ⟨y', hy', heq⟩ := ih x' hx'
      exact ⟨y', List.mem_cons_of_mem _ hy', heq⟩

/-- Every result stands beside its argument. -/
theorem ok_of_mem_zip {f : α → Except ε β} {xs : List α} {ys : List β} (h : xs.mapM f = .ok ys) :
    ∀ q ∈ xs.zip ys, f q.1 = .ok q.2 :=
  fun _ hq => (List.forall₂_iff_zip.mp (forall₂_of_mapM h)).2 hq

/-- A list succeeds if every member does. -/
theorem exists_mapM_ok {f : α → Except ε β} {xs : List α} (h : ∀ x ∈ xs, ∃ y, f x = .ok y) :
    ∃ ys, xs.mapM f = .ok ys := by
  induction xs with
  | nil => exact ⟨[], rfl⟩
  | cons x xs ih =>
    obtain ⟨y, hy⟩ := h x (List.mem_cons_self ..)
    obtain ⟨ys, hys⟩ := ih fun x hx => h x (List.mem_cons_of_mem _ hx)
    exact ⟨y :: ys, List.mapM_cons.trans (bind_of_ok hy (bind_of_ok hys rfl))⟩

/-- A list fails with the failure of a member. -/
theorem exists_of_mapM_error {f : α → Except ε β} {xs : List α} {err : ε}
    (h : xs.mapM f = .error err) : ∃ x ∈ xs, f x = .error err := by
  induction xs with
  | nil => cases h
  | cons x xs ih =>
    rw [List.mapM_cons] at h
    cases hx : f x with
    | error err' =>
      rw [hx] at h
      exact ⟨x, List.mem_cons_self .., hx.trans (congrArg Except.error (Except.error.inj h))⟩
    | ok y =>
      cases hxs : xs.mapM f with
      | error err' =>
        rw [hx, hxs] at h
        obtain rfl := Except.error.inj h
        obtain ⟨x', hx', herr⟩ := ih hxs
        exact ⟨x', List.mem_cons_of_mem _ hx', herr⟩
      | ok ys =>
        rw [hx, hxs] at h
        cases h

/-- What stands beside each other in two lists stands beside something of a list as long. -/
theorem exists_mem_zip_of_length {γ : Type} {xs : List α} {ys : List β} {zs : List γ}
    (hlength : ys.length = xs.length) {x : α} {z : γ} (h : (x, z) ∈ xs.zip zs) :
    ∃ y, (x, y) ∈ xs.zip ys ∧ (y, z) ∈ ys.zip zs ∧ (z, y) ∈ zs.zip ys := by
  obtain ⟨i, hi⟩ := List.getElem?_of_mem h
  obtain ⟨hx, hz⟩ := List.getElem?_zip_eq_some.mp hi
  obtain ⟨hlt, -⟩ := List.getElem?_eq_some_iff.mp hx
  have hy : ys[i]? = some ys[i] := List.getElem?_eq_getElem (by omega)
  refine ⟨ys[i], ?_, ?_, ?_⟩
  · exact List.mem_of_getElem? (List.getElem?_zip_eq_some.mpr ⟨hx, hy⟩)
  · exact List.mem_of_getElem? (List.getElem?_zip_eq_some.mpr ⟨hy, hz⟩)
  · exact List.mem_of_getElem? (List.getElem?_zip_eq_some.mpr ⟨hz, hy⟩)

/-- The results at some places are those of the arguments at these places. -/
theorem mapM_filterMap_zipIdx {f : α → Except ε β} (keep : Nat → Bool) {xs : List α} :
    ∀ {ys : List β} {i : Nat}, xs.mapM f = .ok ys →
      (((xs.zipIdx i).filter fun p => keep p.2).map Prod.fst).mapM f =
        .ok (((ys.zipIdx i).filter fun p => keep p.2).map Prod.fst) := by
  induction xs with
  | nil =>
    intro ys i h
    obtain rfl := Except.ok.inj h
    rfl
  | cons x xs ih =>
    intro ys i h
    rw [List.mapM_cons] at h
    obtain ⟨y, hy, h⟩ := exists_of_bind_ok h
    obtain ⟨rest, hrest, h⟩ := exists_of_bind_ok h
    obtain rfl := Except.ok.inj h
    have hrest' := ih (i := i + 1) hrest
    simp only [List.zipIdx_cons, List.filter_cons]
    split
    · rw [List.map_cons, List.mapM_cons, hy, hrest']
      rfl
    · exact hrest'

end TensorKernel
