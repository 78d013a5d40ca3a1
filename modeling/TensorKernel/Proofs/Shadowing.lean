import Mathlib.Data.List.Sort
import Mathlib.Data.String.Basic
import TensorKernel.Proofs.CacheTransparency

/-!
# Shadowed definitions

A module may define a name more than once, and the last definition counts.  A registry is a table in
key order, which is determined by what is looked up in it, so it is the same without the definitions
that are replaced (`Registry.ofDefs_unshadowed`), and so is whatever it answers.

The main function is also looked for in the list of definitions, where the first one of its name is
found.  What this one says about annotations, and where it stands, shows in the result
(`buildGraph_replacedHeader`); nothing else of it does.
-/

namespace TensorKernel

/-! ## Tables in key order -/

namespace Table

variable {κ α : Type} [DecidableEq κ]

theorem lookup_append (key : κ) (xs ys : List (κ × α)) :
    lookup key (xs ++ ys) = (lookup key xs).or (lookup key ys) := by
  induction xs with
  | nil => rfl
  | cons pair rest ih =>
    obtain ⟨other, value⟩ := pair
    by_cases same : key = other
    · simp [lookup, same]
    · simpa [lookup, same] using ih

variable [LT κ]

/-- The keys of a table stand in increasing order. -/
def Sorted (table : Table κ α) : Prop :=
  table.keys.Pairwise (· < ·)

/-- A table in key order is determined by what is looked up in it. -/
theorem Sorted.ext [IsStrictTotalOrder κ (· < ·)] {l r : Table κ α} (hl : l.Sorted) (hr : r.Sorted)
    (h : ∀ key, l.get? key = r.get? key) : l = r := by
  have hnodup {t : Table κ α} (ht : t.Sorted) : t.keys.Nodup :=
    List.Pairwise.imp (fun {key other} hlt (heq : key = other) =>
      irrefl_of (· < ·) other (heq ▸ hlt)) ht
  have hmem {t : Table κ α} (ht : t.Sorted) (entry : κ × α) :
      entry ∈ t.entries ↔ t.get? entry.1 = some entry.2 :=
    ⟨fun hentry => get?_of_mem (hnodup ht) hentry, fun hget => mem_of_get? hget⟩
  have hperm : l.entries.Perm r.entries :=
    (List.perm_ext_iff_of_nodup (List.Nodup.of_map _ (hnodup hl))
      (List.Nodup.of_map _ (hnodup hr))).mpr fun entry => by rw [hmem hl, hmem hr, h]
  have hentries : l.entries = r.entries :=
    hperm.eq_of_pairwise
      (fun p q _ _ (hpq : p.1 < q.1) hqp => absurd (trans_of (· < ·) hpq hqp) (irrefl_of (· < ·) p.1))
      (List.pairwise_map.mp hl) (List.pairwise_map.mp hr)
  cases l
  cases r
  exact congrArg mk hentries

variable [DecidableLT κ]

/-- The table of a list of pairs has the last value of every key. -/
theorem get?_ofList (pairs : List (κ × α)) (key : κ) :
    (ofList pairs).get? key = lookup key pairs.reverse := by
  have hfold : ∀ (rest : List (κ × α)) (table : Table κ α),
      (rest.foldl (fun table pair => table.insert pair.1 pair.2) table).get? key =
        (lookup key rest.reverse).or (table.get? key) := by
    intro rest
    induction rest with
    | nil => exact fun _ => rfl
    | cons pair rest ih =>
      intro table
      rw [List.foldl_cons, ih, List.reverse_cons, lookup_append, Option.or_assoc, get?_insert]
      congr 1
      by_cases same : key = pair.1 <;> simp [lookup, same]
  rw [ofList, hfold pairs empty, get?_empty, Option.or_none]

variable [IsStrictTotalOrder κ (· < ·)]

theorem pairwise_place {key : κ} (value : α) {pairs : List (κ × α)}
    (h : (pairs.map Prod.fst).Pairwise (· < ·)) :
    ((place key value pairs).map Prod.fst).Pairwise (· < ·) := by
  induction pairs with
  | nil => simp [place]
  | cons pair rest ih =>
    obtain ⟨other, previous⟩ := pair
    obtain ⟨hhead, hrest⟩ := List.pairwise_cons.mp h
    by_cases same : key = other
    · subst same
      simpa [place] using h
    · by_cases less : key < other
      · simp only [place, same, less, if_false, if_true]
        refine List.pairwise_cons.mpr ⟨fun k hk => ?_, h⟩
        rcases List.mem_cons.mp hk with rfl | hk
        · exact less
        · exact trans_of (· < ·) less (hhead k hk)
      · simp only [place, same, less, if_false]
        have hless : other < key := (trichotomous_of (· < ·) key other).resolve_left less
          |>.resolve_left same
        refine List.pairwise_cons.mpr ⟨fun k hk => ?_, ih hrest⟩
        -- A key after the placed pair is the new one or was there before.
        obtain ⟨entry, hentry, rfl⟩ := List.mem_map.mp hk
        have hkey : entry.1 = key ∨ entry.1 ∈ rest.map Prod.fst := by
          have hsome := (lookup_isSome_iff entry.1 (place key value rest)).mpr hk
          rw [lookup_place] at hsome
          split at hsome
          · next heq => exact Or.inl heq
          · exact Or.inr ((lookup_isSome_iff entry.1 rest).mp hsome)
        rcases hkey with heq | hmem
        · exact heq ▸ hless
        · exact hhead _ hmem

theorem sorted_ofList (pairs : List (κ × α)) : (ofList pairs).Sorted := by
  have hfold : ∀ (rest : List (κ × α)) (table : Table κ α), table.Sorted →
      (rest.foldl (fun table pair => table.insert pair.1 pair.2) table).Sorted := by
    intro rest
    induction rest with
    | nil => exact fun _ h => h
    | cons pair rest ih => exact fun table h => ih _ (pairwise_place pair.2 h)
  exact hfold pairs empty List.Pairwise.nil

end Table

/-! ## Modules without shadowed definitions -/

/-- The definitions that no later one of the same name replaces. -/
def unshadowed : List FunctionDef → List FunctionDef
  | [] => []
  | f :: rest => if rest.any fun g => g.id = f.id then unshadowed rest else f :: unshadowed rest

section Modules

/-- What is found under a name is its last definition. -/
theorem find?_unshadowed (defs : List FunctionDef) (id : String) :
    (unshadowed defs).find? (fun f => f.id = id) =
      Table.lookup id (defs.map fun f => (f.id, f)).reverse := by
  induction defs with
  | nil => rfl
  | cons f rest ih =>
    rw [List.map_cons, List.reverse_cons, Table.lookup_append, ← ih, unshadowed]
    have hone : Table.lookup id [(f.id, f)] = if f.id = id then some f else none := by
      simp only [Table.lookup, eq_comm]
    rw [hone]
    by_cases same : f.id = id
    · subst same
      by_cases later : rest.any fun g => g.id = f.id
      · -- A later definition is found first, and it is a definition of this name.
        have hsome : ((unshadowed rest).find? fun g => g.id = f.id).isSome := by
          rw [ih, Table.lookup_isSome_iff]
          simpa using later
        obtain ⟨g, hg⟩ := Option.isSome_iff_exists.mp hsome
        simp [later, hg]
      · have hnone : ((unshadowed rest).find? fun g => g.id = f.id) = none := by
          rw [ih, ← Option.not_isSome_iff_eq_none, Table.lookup_isSome_iff]
          simpa using later
        simp [later, hnone]
    · split <;> simp [same]

theorem any_unshadowed (defs : List FunctionDef) (id : String) :
    ((unshadowed defs).any fun f => f.id = id) = defs.any fun f => f.id = id := by
  induction defs with
  | nil => rfl
  | cons f rest ih =>
    rw [unshadowed]
    split
    · next later =>
      rw [ih, List.any_cons]
      by_cases same : f.id = id
      · subst same
        simpa using later
      · simp [same]
    · rw [List.any_cons, List.any_cons, ih]

/-- Nothing is left to remove. -/
theorem unshadowed_unshadowed (defs : List FunctionDef) :
    unshadowed (unshadowed defs) = unshadowed defs := by
  induction defs with
  | nil => rfl
  | cons f rest ih =>
    rw [unshadowed]
    split
    · exact ih
    · next later => rw [unshadowed, any_unshadowed, if_neg later, ih]

/-- A registry has the definitions that are not replaced. -/
theorem Registry.get?_functions_ofDefs (defs : List FunctionDef) (id : String) :
    (Registry.ofDefs defs).functions.get? id = (unshadowed defs).find? fun f => f.id = id := by
  rw [find?_unshadowed]
  exact Table.get?_ofList _ id

/-- A registry is the same without the definitions that are replaced. -/
theorem Registry.ofDefs_unshadowed (defs : List FunctionDef) :
    Registry.ofDefs (unshadowed defs) = Registry.ofDefs defs := by
  have hfunctions : (Registry.ofDefs (unshadowed defs)).functions = (Registry.ofDefs defs).functions := by
    refine (Table.sorted_ofList _).ext (Table.sorted_ofList _) fun id => ?_
    calc (Registry.ofDefs (unshadowed defs)).functions.get? id
        = (unshadowed (unshadowed defs)).find? fun f => f.id = id := get?_functions_ofDefs _ id
      _ = (unshadowed defs).find? fun f => f.id = id := by rw [unshadowed_unshadowed]
      _ = (Registry.ofDefs defs).functions.get? id := (get?_functions_ofDefs defs id).symm
  exact congrArg (fun functions => (⟨functions, .empty, []⟩ : Registry)) hfunctions

/--
Two definitions of a main function are refused alike as templates: both are templates that stand at the
same place, or none of them is one.
-/
def ChecksAlike (first last : FunctionDef) : Prop :=
  first.isTemplate = last.isTemplate ∧ (last.isTemplate = true → first.span = last.span)

/--
Definitions that are replaced have no effect on the graph of a main function, if the first and the
last definition of its name are templates both, at one place, or are no templates.
-/
theorem buildGraph_unshadowed (defs : List FunctionDef) (main : String) (options : Options)
    (hmain : ∀ first last, defs.find? (fun f => f.id = main) = some first →
      (unshadowed defs).find? (fun f => f.id = main) = some last → ChecksAlike first last) :
    buildGraph (unshadowed defs) main options = buildGraph defs main options := by
  unfold buildGraph
  rw [Registry.ofDefs_unshadowed]
  cases hlast : (unshadowed defs).find? fun f => f.id = main with
  | none =>
    have hnone : defs.find? (fun f => f.id = main) = none := by
      rw [← Option.not_isSome_iff_eq_none, List.find?_isSome, ← List.any_eq_true, ← any_unshadowed,
        List.any_eq_true, ← List.find?_isSome, hlast]
      exact Bool.false_ne_true
    rw [hnone]
  | some last =>
    have hsome : (defs.find? fun f => f.id = main).isSome := by
      rw [List.find?_isSome, ← List.any_eq_true, ← any_unshadowed, List.any_eq_true,
        ← List.find?_isSome, hlast]
      rfl
    obtain ⟨first, hfirst⟩ := Option.isSome_iff_exists.mp hsome
    obtain ⟨htemplate, hspan⟩ := hmain first last hfirst hlast
    rw [hfirst]
    cases hannotated : last.isTemplate with
    | true => simp [htemplate, hannotated, hspan hannotated]
    | false =>
      -- A call of a function with annotations is answered alike wherever it stands.
      have hget : (Registry.ofDefs defs).functions.get? main = some last := by
        rw [Registry.get?_functions_ofDefs, hlast]
      have htypes (span : Span) : Registry.paramTypes last [] span = .ok none := by
        simp [Registry.paramTypes, hannotated]
      have hanswer (span : Span) :
          ((Registry.ofDefs defs).instantiate .standard options main [] span).1 =
            ((Registry.ofDefs defs).buildWith .standard options main last none).1 :=
        Registry.instantiate_missed hget (htypes span) rfl
      simp only [htemplate, hannotated, Bool.false_eq_true, if_false]
      exact (hanswer last.span).trans (hanswer first.span).symm

/-- A function that returns twice its argument, behind one that returns its argument. -/
def replacedModule : List FunctionDef :=
  [returning "main" "x" (some "int64") (calling "f" (.name "x" .nowhere)),
    returning "f" "x" (some "int64") (.name "x" .nowhere),
    returning "f" "x" none (.binary (.name "x" .nowhere) .add (.name "x" .nowhere) .nowhere),
    returning "main" "x" (some "int32") (calling "f" (.name "x" .nowhere))]

theorem buildGraph_unshadowed_replacedModule :
    (unshadowed replacedModule).length = 2 ∧
      buildGraph (unshadowed replacedModule) "main" .default =
        buildGraph replacedModule "main" .default := by
  refine ⟨by decide, buildGraph_unshadowed replacedModule "main" .default fun first last hfirst hlast => ?_⟩
  obtain rfl := Option.some.inj hfirst
  obtain rfl := Option.some.inj hlast
  exact ⟨rfl, nofun⟩

/-- A function under its name, as a template or with an annotation, at a line of the source. -/
def identityAt (line : Nat) (hint : Option String) : FunctionDef :=
  { returning "f" "x" hint (.name "x" .nowhere) with span := ⟨"kernels", ⟨line, 0⟩, ⟨line, 0⟩⟩ }

/-- Each part of the condition on the main function is needed. -/
theorem buildGraph_replacedHeader :
    (∃ g, buildGraph (unshadowed [identityAt 1 none, identityAt 4 (some "int64")]) "f" .default = .ok g) ∧
    buildGraph [identityAt 1 none, identityAt 4 (some "int64")] "f" .default =
      .error ⟨.templateMain "f", (identityAt 1 none).span⟩ ∧
    buildGraph [identityAt 1 (some "int64"), identityAt 4 none] "f" .default ≠
      buildGraph (unshadowed [identityAt 1 (some "int64"), identityAt 4 none]) "f" .default ∧
    buildGraph [identityAt 1 none, identityAt 4 none] "f" .default ≠
      buildGraph (unshadowed [identityAt 1 none, identityAt 4 none]) "f" .default := by
  have hbuilds : (buildGraph (unshadowed [identityAt 1 none, identityAt 4 (some "int64")]) "f"
      .default).toOption.any (fun _ => true) = true := by decide +kernel
  obtain ⟨g, hg, -⟩ := exists_of_any_toOption hbuilds
  exact ⟨⟨g, hg⟩, by decide +kernel, by decide +kernel, by decide +kernel⟩

end Modules

end TensorKernel
