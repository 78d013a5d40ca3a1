import Mathlib.Data.Set.Function
import TensorKernel.Proofs.Build.CacheKey

/-!
# Generalised types

The types of a template's parameters are those of the arguments with a symbol in the place of every
dimension that is not a constant.  The symbols are chosen one after another, but what was chosen is
never given up, so the types are a renaming by the symbols that are chosen in the end.  A symbol is
named after a parameter and an axis of it, and no other pair of them has the same name, so different
dimensions have different symbols.
-/

namespace TensorKernel

/-! ## Renamed dimensions -/

/-- The dimensions of argument types that are not constants. -/
def openDims (given : List KernelType) : Set Dim :=
  {d | d.isStatic = false ∧ ∃ ty ∈ given, d ∈ ty.shape}

/-- Puts another dimension in the place of one that is not a constant. -/
def Dim.rename (σ : Dim → Dim) (d : Dim) : Dim :=
  if d.isStatic then d else σ d

namespace Dim

variable {σ τ : Dim → Dim} {d : Dim}

theorem rename_const (n : Int) : (Dim.const n).rename σ = .const n := rfl

theorem rename_open (h : d.isStatic = false) : d.rename σ = σ d := by
  simp [rename, h]

theorem isStatic_eq_true_iff : d.isStatic = true ↔ ∃ n, d = .const n := by
  cases d <;> simp [isStatic]

theorem rename_rename (h : d.isStatic = false → (σ d).isStatic = false) :
    (d.rename σ).rename τ = d.rename (τ ∘ σ) := by
  cases hd : d.isStatic with
  | true =>
    obtain ⟨n, rfl⟩ := isStatic_eq_true_iff.mp hd
    rfl
  | false => rw [rename_open hd, rename_open hd, rename_open (h hd), Function.comp_apply]

/-- A renaming that keeps dimensions open keeps the constants as they are, and adds none. -/
theorem rename_eq_const_iff (h : d.isStatic = false → (σ d).isStatic = false) (n : Int) :
    d.rename σ = .const n ↔ d = .const n := by
  cases hd : d.isStatic with
  | true =>
    obtain ⟨m, rfl⟩ := isStatic_eq_true_iff.mp hd
    rfl
  | false =>
    rw [rename_open hd]
    constructor
    · intro heq
      have hopen := h hd
      rw [heq] at hopen
      cases hopen
    · rintro rfl
      cases hd

/-- Dimensions are told apart after a renaming of the open ones that tells these apart. -/
theorem rename_inj {S : Set Dim} (hinj : Set.InjOn σ S) (hopen : ∀ d ∈ S, (σ d).isStatic = false)
    {d e : Dim} (hd : d.isStatic = false → d ∈ S) (he : e.isStatic = false → e ∈ S) :
    d.rename σ = e.rename σ ↔ d = e := by
  refine ⟨fun h => ?_, fun h => h ▸ rfl⟩
  cases hstatic : e.isStatic with
  | true =>
    obtain ⟨n, rfl⟩ := isStatic_eq_true_iff.mp hstatic
    exact (rename_eq_const_iff (fun hd' => hopen d (hd hd')) n).mp h
  | false =>
    cases hstatic' : d.isStatic with
    | true =>
      obtain ⟨n, rfl⟩ := isStatic_eq_true_iff.mp hstatic'
      exact ((rename_eq_const_iff (fun he' => hopen e (he he')) n).mp h.symm).symm
    | false =>
      rw [rename_open hstatic, rename_open hstatic'] at h
      exact hinj (hd hstatic') (he hstatic) h

end Dim

/-- Puts other dimensions in the places of those that are not constants. -/
def KernelType.rename (σ : Dim → Dim) : KernelType → KernelType
  | .scalar sz => .scalar sz
  | .tensor sz shape => .tensor sz (shape.map (Dim.rename σ))

namespace KernelType

variable {σ τ : Dim → Dim} {ty : KernelType}

@[simp] theorem shape_rename (σ : Dim → Dim) (ty : KernelType) :
    (ty.rename σ).shape = ty.shape.map (Dim.rename σ) := by
  cases ty <;> rfl

@[simp] theorem elemSize_rename (σ : Dim → Dim) (ty : KernelType) :
    (ty.rename σ).elemSize = ty.elemSize := by
  cases ty <;> rfl

@[simp] theorem isScalar_rename (σ : Dim → Dim) (ty : KernelType) :
    (ty.rename σ).isScalar = ty.isScalar := by
  cases ty <;> rfl

theorem rename_rename (h : ∀ d ∈ ty.shape, d.isStatic = false → (σ d).isStatic = false) :
    (ty.rename σ).rename τ = ty.rename (τ ∘ σ) := by
  cases ty with
  | scalar sz => rfl
  | tensor sz shape =>
    refine congrArg (tensor sz) ?_
    rw [List.map_map]
    exact List.map_congr_left fun d hd => Dim.rename_rename (h d hd)

theorem rename_eq_self (h : ∀ d ∈ ty.shape, d.isStatic = false → σ d = d) : ty.rename σ = ty := by
  cases ty with
  | scalar sz => rfl
  | tensor sz shape =>
    refine congrArg (tensor sz) ((List.map_congr_left fun d hd => ?_).trans (List.map_id shape))
    cases hd' : d.isStatic with
    | true => simp [Dim.rename, hd']
    | false => rw [Dim.rename_open hd', h d hd hd', id]

/-- Two types are both scalar or both not, and have the same element size, rank and constants. -/
structure SameForm (l r : KernelType) : Prop where
  isScalar : l.isScalar = r.isScalar
  elemSize : l.elemSize = r.elemSize
  rank : l.rank = r.rank
  const : ∀ (axis : Nat) (n : Int),
    l.shape[axis]? = some (.const n) ↔ r.shape[axis]? = some (.const n)

/-- A renaming that keeps dimensions open keeps the form of a type. -/
theorem sameForm_rename (h : ∀ d ∈ ty.shape, d.isStatic = false → (σ d).isStatic = false) :
    ty.SameForm (ty.rename σ) where
  isScalar := (isScalar_rename σ ty).symm
  elemSize := (elemSize_rename σ ty).symm
  rank := by simp [rank]
  const axis n := by
    rw [shape_rename, List.getElem?_map]
    cases hd : ty.shape[axis]? with
    | none => simp
    | some d =>
      rw [Option.map_some, Option.some.injEq, Option.some.injEq,
        Dim.rename_eq_const_iff (h d (List.mem_of_getElem? hd))]

end KernelType

section Renaming

variable {σ : Dim → Dim} {given : List KernelType}

theorem openDims_map_rename (hopen : ∀ d ∈ openDims given, (σ d).isStatic = false) :
    openDims (given.map (KernelType.rename σ)) = σ '' openDims given := by
  ext e
  constructor
  · rintro ⟨he, ty', hty', hmem⟩
    obtain ⟨ty, hty, rfl⟩ := List.mem_map.mp hty'
    rw [KernelType.shape_rename] at hmem
    obtain ⟨d, hd, rfl⟩ := List.mem_map.mp hmem
    cases hstatic : d.isStatic with
    | true => simp [Dim.rename, hstatic] at he
    | false => exact ⟨d, ⟨hstatic, ty, hty, hd⟩, (Dim.rename_open hstatic).symm⟩
  · rintro ⟨d, hd, rfl⟩
    obtain ⟨hstatic, ty, hty, hmem⟩ := hd
    refine ⟨hopen d ⟨hstatic, ty, hty, hmem⟩, ty.rename σ, List.mem_map_of_mem hty, ?_⟩
    rw [KernelType.shape_rename, ← Dim.rename_open (σ := σ) hstatic]
    exact List.mem_map_of_mem hmem

/--
If renamings that tell the open dimensions apart give the same types, then one list of types is a
renaming of the other.
-/
theorem exists_bijOn_of_map_rename_eq {given' : List KernelType} {ρ ρ' : Dim → Dim}
    (hinj : Set.InjOn ρ (openDims given)) (hinj' : Set.InjOn ρ' (openDims given'))
    (hopen : ∀ d ∈ openDims given, (ρ d).isStatic = false)
    (hopen' : ∀ d ∈ openDims given', (ρ' d).isStatic = false)
    (h : given.map (KernelType.rename ρ) = given'.map (KernelType.rename ρ')) :
    ∃ σ, Set.BijOn σ (openDims given) (openDims given') ∧
      given' = given.map (KernelType.rename σ) := by
  have himage : ρ '' openDims given = ρ' '' openDims given' := by
    rw [← openDims_map_rename hopen, ← openDims_map_rename hopen', h]
  have hbij' := hinj'.bijOn_image
  have hinv := hbij'.invOn_invFunOn
  -- Back from the symbols of the one to the dimensions of the other.
  let back := Function.invFunOn ρ' (openDims given')
  have hback : Set.BijOn back (Set.image ρ' (openDims given')) (openDims given') := hbij'.symm hinv.symm
  refine ⟨back ∘ ρ, hback.comp (himage ▸ hinj.bijOn_image), ?_⟩
  calc given' = (given'.map (KernelType.rename ρ')).map (KernelType.rename back) := by
        rw [List.map_map]
        refine (List.map_id given').symm.trans (List.map_congr_left fun ty hty => ?_)
        rw [Function.comp_apply,
          KernelType.rename_rename fun d hd hstatic => hopen' d ⟨hstatic, ty, hty, hd⟩]
        exact (KernelType.rename_eq_self fun d hd hstatic => hinv.1 ⟨hstatic, ty, hty, hd⟩).symm
    _ = (given.map (KernelType.rename ρ)).map (KernelType.rename back) := by rw [h]
    _ = given.map (KernelType.rename (back ∘ ρ)) := by
        rw [List.map_map]
        exact List.map_congr_left fun ty hty =>
          KernelType.rename_rename fun d hd hstatic => hopen d ⟨hstatic, ty, hty, hd⟩

end Renaming

/-! ## Names of axes -/

/-- The name of the symbol for an axis of a parameter. -/
def axisName (param : String) (axis : Nat) : String :=
  param ++ "_dim" ++ axis.repr

/-- The name of an axis tells the parameter and the axis. -/
theorem axisName_inj {param param' : String} {axis axis' : Nat}
    (h : axisName param axis = axisName param' axis') : param = param' ∧ axis = axis' := by
  -- Read from its end, the name has the digits of the axis up to the last letter before them.
  have hreverse (param : String) (axis : Nat) : (axisName param axis).toList.reverse =
      axis.repr.toList.reverse ++ ('m' :: 'i' :: 'd' :: '_' :: param.toList.reverse) := by
    simp [axisName]
  have hdigits (param : String) (axis : Nat) :
      (axisName param axis).toList.reverse.takeWhile Char.isDigit = axis.repr.toList.reverse := by
    rw [hreverse, List.takeWhile_append_of_pos fun c hc =>
      isDigit_of_mem_natRepr (List.mem_reverse.mp hc)]
    simp
  have haxis : axis = axis' := by
    refine natRepr_inj (String.toList_injective (List.reverse_injective ?_))
    rw [← hdigits param, ← hdigits param', h]
  subst haxis
  have hparam := congrArg (fun name => name.toList.reverse) h
  simp only [hreverse, List.append_cancel_left_eq, List.cons.injEq, true_and] at hparam
  exact ⟨String.toList_injective (List.reverse_injective hparam), rfl⟩

/-! ## Chosen symbols -/

namespace DimNames

variable {names names' : DimNames} {param : String} {axis : Nat} {d : Dim}

theorem mem_of_symbol? {name : String} (h : names.symbol? d = some name) : (d, name) ∈ names := by
  obtain ⟨⟨e, name'⟩, hfound, rfl⟩ := Option.map_eq_some_iff.mp h
  have heq := List.find?_some hfound
  obtain rfl : e = d := by simpa using heq
  exact List.mem_of_find?_eq_some hfound

theorem find?_eq_none (h : names.symbol? d = none) :
    List.find? (fun entry => decide (entry.1 = d)) names = none := by
  simpa [symbol?] using h

/-- What was chosen is kept. -/
theorem symbol?_of_prefix (hkept : names <+: names') {name : String}
    (h : names.symbol? d = some name) : names'.symbol? d = some name := by
  obtain ⟨more, rfl⟩ := hkept
  obtain ⟨entry, hfound, hname⟩ := Option.map_eq_some_iff.mp h
  simp [symbol?, List.find?_append, hfound, hname]

/-- What stands for a dimension for which a symbol was chosen. -/
def replacement (names : DimNames) (d : Dim) : Dim :=
  match names.symbol? d with
  | some name => .sym name
  | none => d

theorem replacement_eq {name : String} (h : names.symbol? d = some name) :
    names.replacement d = .sym name := by
  simp [replacement, h]

theorem isStatic_replacement (h : (names.symbol? d).isSome) :
    (names.replacement d).isStatic = false := by
  obtain ⟨name, hname⟩ := Option.isSome_iff_exists.mp h
  rw [replacement_eq hname]
  rfl

/-- Chooses a symbol for a dimension, unless it has one. -/
def choose (names : DimNames) (param : String) (axis : Nat) (d : Dim) : DimNames :=
  match names.symbol? d with
  | some _ => names
  | none => names ++ [(d, axisName param axis)]

theorem prefix_choose : names <+: names.choose param axis d := by
  unfold choose
  split
  · exact List.prefix_refl _
  · exact List.prefix_append _ _

theorem symbol?_choose (names : DimNames) (param : String) (axis : Nat) (d : Dim) :
    ((names.choose param axis d).symbol? d).isSome := by
  unfold choose
  split
  · next name h => simp [h]
  · next h => simp [symbol?, List.find?_append, find?_eq_none h]

/-- A dimension that is not a constant is replaced by what is chosen for it. -/
theorem replaceShape_open (h : d.isStatic = false) (rest : Shape) :
    replaceShape param names axis (d :: rest) =
      ((names.choose param axis d).replacement d ::
          (replaceShape param (names.choose param axis d) (axis + 1) rest).1,
        (replaceShape param (names.choose param axis d) (axis + 1) rest).2) := by
  cases hname : names.symbol? d with
  | some name =>
    simp only [choose, hname, replacement_eq hname]
    cases d with
    | const n => cases h
    | sym _ | node _ => simp only [replaceShape, hname]
  | none =>
    have hnew : DimNames.symbol? (names ++ [(d, axisName param axis)]) d =
        some (axisName param axis) := by
      simp [symbol?, List.find?_append, find?_eq_none hname]
    simp only [choose, hname, replacement_eq hnew]
    cases d with
    | const n => cases h
    | sym _ | node _ =>
      simp only [replaceShape, hname]
      rfl

/-- The symbols that are chosen after the arguments that follow. -/
def chosen : DimNames → List (String × KernelType) → DimNames
  | names, [] => names
  | names, (param, ty) :: rest => chosen (replaceType param names ty).2 rest

theorem prefix_replaceShape (shape : Shape) :
    ∀ {names : DimNames} {axis : Nat}, names <+: (replaceShape param names axis shape).2 := by
  induction shape with
  | nil => exact List.prefix_refl _
  | cons d rest ih =>
    intro names axis
    cases hd : d.isStatic with
    | true =>
      obtain ⟨n, rfl⟩ := Dim.isStatic_eq_true_iff.mp hd
      exact ih
    | false =>
      rw [replaceShape_open hd]
      exact prefix_choose.trans ih

/-- Shapes are renamed by the symbols that are chosen in the end. -/
theorem replaceShape_eq (shape : Shape) {last : DimNames} :
    ∀ {names : DimNames} {axis : Nat}, (replaceShape param names axis shape).2 <+: last →
      (replaceShape param names axis shape).1 = shape.map (Dim.rename last.replacement) ∧
        ∀ d ∈ shape, d.isStatic = false → (last.symbol? d).isSome := by
  induction shape with
  | nil => exact fun _ => ⟨rfl, nofun⟩
  | cons d rest ih =>
    intro names axis hlast
    cases hd : d.isStatic with
    | true =>
      obtain ⟨n, rfl⟩ := Dim.isStatic_eq_true_iff.mp hd
      obtain ⟨hshape, hchosen⟩ := ih hlast
      refine ⟨congrArg (Dim.const n :: ·) hshape, List.forall_mem_cons.mpr ⟨?_, hchosen⟩⟩
      exact fun hopen => absurd hopen (by rw [hd]; decide)
    | false =>
      rw [replaceShape_open hd] at hlast ⊢
      obtain ⟨hshape, hchosen⟩ := ih hlast
      obtain ⟨name, hname⟩ := Option.isSome_iff_exists.mp (symbol?_choose names param axis d)
      have hname' := symbol?_of_prefix ((prefix_replaceShape rest).trans hlast) hname
      refine ⟨?_, List.forall_mem_cons.mpr ⟨fun _ => by simp [hname'], hchosen⟩⟩
      rw [List.map_cons, Dim.rename_open hd, replacement_eq hname, replacement_eq hname', hshape]

theorem prefix_replaceType (ty : KernelType) : names <+: (replaceType param names ty).2 := by
  cases ty with
  | scalar sz => exact List.prefix_refl _
  | tensor sz shape => exact prefix_replaceShape shape

theorem prefix_chosen (given : List (String × KernelType)) :
    ∀ {names : DimNames}, names <+: chosen names given := by
  induction given with
  | nil => exact List.prefix_refl _
  | cons entry rest ih => exact (prefix_replaceType entry.2).trans ih

theorem replaceType_eq (param : String) (names : DimNames) (ty : KernelType) {last : DimNames}
    (hlast : (replaceType param names ty).2 <+: last) :
    (replaceType param names ty).1 = ty.rename last.replacement ∧
      ∀ d ∈ ty.shape, d.isStatic = false → (last.symbol? d).isSome := by
  cases ty with
  | scalar sz => exact ⟨rfl, nofun⟩
  | tensor sz shape =>
    obtain ⟨hshape, hchosen⟩ := replaceShape_eq shape hlast
    exact ⟨congrArg (KernelType.tensor sz) hshape, hchosen⟩

/-- The types of all parameters are renamed alike, by symbols for all their open dimensions. -/
theorem replaceTypes_eq (given : List (String × KernelType)) :
    ∀ {names : DimNames},
      replaceTypes names given =
          given.map (fun entry => entry.2.rename (chosen names given).replacement) ∧
        ∀ entry ∈ given, ∀ d ∈ entry.2.shape, d.isStatic = false →
          ((chosen names given).symbol? d).isSome := by
  -- The symbols of this argument are a part of those chosen in the end, which rename all of them.
  induction given with
  | nil => exact ⟨rfl, nofun⟩
  | cons entry rest ih =>
    intro names
    obtain ⟨hhead, hopen⟩ := replaceType_eq entry.1 names entry.2 (prefix_chosen rest)
    obtain ⟨hrest, hopen'⟩ := @ih (replaceType entry.1 names entry.2).2
    refine ⟨?_, List.forall_mem_cons.mpr ⟨hopen, hopen'⟩⟩
    have hcons : replaceTypes names (entry :: rest) = (replaceType entry.1 names entry.2).1 ::
        replaceTypes (replaceType entry.1 names entry.2).2 rest := rfl
    rw [hcons, hhead, hrest]
    rfl

/-! ## Different symbols -/

/-- The symbols are different, and each is that of an axis for which symbols were chosen. -/
structure Named (chosenFor : String → Nat → Prop) (names : DimNames) : Prop where
  nodup : (names.map Prod.snd).Nodup
  axis : ∀ entry ∈ names, ∃ param axis, entry.2 = axisName param axis ∧ chosenFor param axis

variable {chosenFor : String → Nat → Prop}

theorem Named.mono {chosenFor' : String → Nat → Prop} (h : names.Named chosenFor)
    (himp : ∀ param axis, chosenFor param axis → chosenFor' param axis) : names.Named chosenFor' where
  nodup := h.nodup
  axis entry hentry := by
    obtain ⟨param, axis, hname, hchosen⟩ := h.axis entry hentry
    exact ⟨param, axis, hname, himp param axis hchosen⟩

theorem Named.choose (h : names.Named chosenFor) (hnew : ¬chosenFor param axis) (d : Dim) :
    (names.choose param axis d).Named
      fun p a => chosenFor p a ∨ p = param ∧ a = axis := by
  unfold DimNames.choose
  split
  · exact h.mono fun _ _ => Or.inl
  · constructor
    · rw [List.map_append]
      refine List.nodup_append.mpr ⟨h.nodup, List.nodup_singleton _, ?_⟩
      rintro name hname name' hname' rfl
      obtain ⟨entry, hentry, rfl⟩ := List.mem_map.mp hname
      obtain ⟨p, a, htext, hused⟩ := h.axis entry hentry
      obtain ⟨rfl, rfl⟩ := axisName_inj (htext.symm.trans (List.mem_singleton.mp hname'))
      exact hnew hused
    · intro entry hentry
      rcases List.mem_append.mp hentry with hentry | hentry
      · obtain ⟨p, a, htext, hused⟩ := h.axis entry hentry
        exact ⟨p, a, htext, Or.inl hused⟩
      · exact ⟨param, axis, by rw [List.mem_singleton.mp hentry], Or.inr ⟨rfl, rfl⟩⟩

/-- While an argument is read, symbols are chosen for the earlier parameters and the axes before. -/
theorem named_replaceShape {done : List String} (hparam : param ∉ done) (shape : Shape) :
    ∀ {names : DimNames} {axis : Nat},
      names.Named (fun p a => p ∈ done ∨ p = param ∧ a < axis) →
      (replaceShape param names axis shape).2.Named fun p _ => p ∈ param :: done := by
  induction shape with
  | nil =>
    intro names axis h
    exact h.mono fun p _ hp => hp.elim (List.mem_cons_of_mem _) fun ⟨hp, _⟩ => hp ▸ List.mem_cons_self
  | cons d rest ih =>
    intro names axis h
    cases hd : d.isStatic with
    | true =>
      obtain ⟨n, rfl⟩ := Dim.isStatic_eq_true_iff.mp hd
      exact ih (h.mono fun p a hp => hp.imp_right fun ⟨hp, ha⟩ => ⟨hp, by omega⟩)
    | false =>
      rw [replaceShape_open hd]
      refine ih ((h.choose (fun hused => ?_) d).mono fun p a hp => ?_)
      · exact hused.elim hparam fun ⟨_, hlt⟩ => Nat.lt_irrefl _ hlt
      · rcases hp with (hp | ⟨hp, ha⟩) | ⟨hp, ha⟩
        · exact Or.inl hp
        · exact Or.inr ⟨hp, by omega⟩
        · exact Or.inr ⟨hp, by omega⟩

theorem named_chosen (given : List (String × KernelType)) :
    ∀ {names : DimNames} {done : List String}, names.Named (fun p _ => p ∈ done) →
      (given.map Prod.fst).Nodup → (∀ entry ∈ given, entry.1 ∉ done) →
      ((chosen names given).map Prod.snd).Nodup := by
  -- The parameters that are done name all symbols so far, and the next one is none of them.
  induction given with
  | nil => exact fun h _ _ => h.nodup
  | cons entry rest ih =>
    intro names done h hdistinct hnew
    obtain ⟨param, ty⟩ := entry
    obtain ⟨hparam, hdistinct⟩ := List.nodup_cons.mp hdistinct
    obtain ⟨hnew, hnew'⟩ := List.forall_mem_cons.mp hnew
    have hafter : (replaceType param names ty).2.Named fun p _ => p ∈ param :: done := by
      cases ty with
      | scalar sz => exact h.mono fun p _ => List.mem_cons_of_mem _
      | tensor sz shape => exact named_replaceShape hnew shape (h.mono fun p _ => Or.inl)
    refine ih hafter hdistinct fun entry hentry hmem => ?_
    rcases List.mem_cons.mp hmem with heq | hmem
    · exact hparam (List.mem_map.mpr ⟨entry, hentry, heq⟩)
    · exact hnew' entry hentry hmem

/-- Different dimensions have different symbols. -/
theorem injOn_replacement (hdistinct : (names.map Prod.snd).Nodup) {S : Set Dim}
    (hS : ∀ d ∈ S, (names.symbol? d).isSome) : Set.InjOn names.replacement S := by
  intro d hd e he heq
  obtain ⟨name, hname⟩ := Option.isSome_iff_exists.mp (hS d hd)
  obtain ⟨name', hname'⟩ := Option.isSome_iff_exists.mp (hS e he)
  rw [replacement_eq hname, replacement_eq hname'] at heq
  cases heq
  exact (Prod.mk.inj (List.inj_on_of_nodup_map hdistinct (mem_of_symbol? hname)
    (mem_of_symbol? hname') rfl)).1

/-! ## Renamed arguments -/

section Arguments

variable {S : Set Dim} {σ : Dim → Dim} (hinj : Set.InjOn σ S)
  (hopen : ∀ d ∈ S, (σ d).isStatic = false)

/-- The dimensions for which symbols were chosen, renamed. -/
def mapDims (σ : Dim → Dim) (names : DimNames) : DimNames :=
  names.map (Prod.map σ id)

include hinj

theorem symbol?_mapDims (hnames : ∀ entry ∈ names, entry.1 ∈ S) (hd : d ∈ S) :
    (names.mapDims σ).symbol? (σ d) = names.symbol? d := by
  induction names with
  | nil => rfl
  | cons entry rest ih =>
    obtain ⟨hhead, hrest⟩ := List.forall_mem_cons.mp hnames
    have ih := ih hrest
    simp only [symbol?, mapDims, List.map_cons, List.find?_cons, Prod.map_fst,
      hinj.eq_iff hhead hd] at ih ⊢
    split
    · rfl
    · exact ih

theorem choose_mapDims (param : String) (axis : Nat) (hnames : ∀ entry ∈ names, entry.1 ∈ S)
    (hd : d ∈ S) :
    (names.mapDims σ).choose param axis (σ d) = (names.choose param axis d).mapDims σ ∧
      ∀ entry ∈ names.choose param axis d, entry.1 ∈ S := by
  rw [choose, choose, symbol?_mapDims hinj hnames hd]
  split
  · exact ⟨rfl, hnames⟩
  · refine ⟨by simp [mapDims], fun entry hentry => ?_⟩
    rcases List.mem_append.mp hentry with hentry | hentry
    · exact hnames entry hentry
    · rw [List.mem_singleton.mp hentry]
      exact hd

include hopen

/-- Renamed arguments have the same symbols, chosen for the renamed dimensions. -/
theorem replaceShape_rename (param : String) (shape : Shape)
    (hshape : ∀ d ∈ shape, d.isStatic = false → d ∈ S) :
    ∀ {names : DimNames} (axis : Nat), (∀ entry ∈ names, entry.1 ∈ S) →
      replaceShape param (names.mapDims σ) axis (shape.map (Dim.rename σ)) =
          ((replaceShape param names axis shape).1,
            (replaceShape param names axis shape).2.mapDims σ) ∧
        ∀ entry ∈ (replaceShape param names axis shape).2, entry.1 ∈ S := by
  induction shape with
  | nil => exact fun _ hnames => ⟨rfl, hnames⟩
  | cons d rest ih =>
    intro names axis hnames
    obtain ⟨hhead, hrest⟩ := List.forall_mem_cons.mp hshape
    cases hd : d.isStatic with
    | true =>
      obtain ⟨n, rfl⟩ := Dim.isStatic_eq_true_iff.mp hd
      obtain ⟨hsame, hnames'⟩ := ih hrest (axis + 1) hnames
      refine ⟨?_, hnames'⟩
      rw [List.map_cons, Dim.rename_const, replaceShape, hsame]
      rfl
    | false =>
      obtain ⟨hchoose, hkeys⟩ := choose_mapDims hinj param axis hnames (hhead hd)
      obtain ⟨hsame, hnames'⟩ := ih hrest (axis + 1) hkeys
      obtain ⟨name, hname⟩ := Option.isSome_iff_exists.mp (symbol?_choose names param axis d)
      have hname' := (symbol?_mapDims hinj hkeys (hhead hd)).trans hname
      refine ⟨?_, by rw [replaceShape_open hd]; exact hnames'⟩
      rw [List.map_cons, Dim.rename_open hd, replaceShape_open (hopen d (hhead hd)),
        replaceShape_open hd, hchoose, hsame, replacement_eq hname, replacement_eq hname']

theorem replaceType_rename (param : String) (ty : KernelType)
    (hty : ∀ d ∈ ty.shape, d.isStatic = false → d ∈ S)
    (hnames : ∀ entry ∈ names, entry.1 ∈ S) :
    replaceType param (names.mapDims σ) (ty.rename σ) =
        ((replaceType param names ty).1, (replaceType param names ty).2.mapDims σ) ∧
      ∀ entry ∈ (replaceType param names ty).2, entry.1 ∈ S := by
  cases ty with
  | scalar sz => exact ⟨rfl, hnames⟩
  | tensor sz shape =>
    obtain ⟨hsame, hkeys⟩ := replaceShape_rename hinj hopen param shape hty 0 hnames
    exact ⟨by rw [KernelType.rename, replaceType, hsame]; rfl, hkeys⟩

theorem replaceTypes_rename (params : List String) :
    ∀ {given : List KernelType} {names : DimNames}, openDims given ⊆ S →
      (∀ entry ∈ names, entry.1 ∈ S) →
      replaceTypes (names.mapDims σ) (params.zip (given.map (KernelType.rename σ))) =
        replaceTypes names (params.zip given) := by
  induction params with
  | nil => exact fun _ _ => rfl
  | cons param params ih =>
    intro given names hgiven hnames
    cases given with
    | nil => rfl
    | cons ty given =>
      obtain ⟨hsame, hkeys⟩ := replaceType_rename hinj hopen param ty
        (fun d hd hstatic => hgiven ⟨hstatic, ty, List.mem_cons_self .., hd⟩) hnames
      have hrest : openDims given ⊆ S := fun d ⟨hstatic, ty, hty, hd⟩ =>
        hgiven ⟨hstatic, ty, List.mem_cons_of_mem _ hty, hd⟩
      rw [List.map_cons, List.zip_cons_cons, List.zip_cons_cons, replaceTypes, replaceTypes, hsame]
      exact congrArg _ (ih hrest hkeys)

end Arguments

end DimNames

/-! ## Types of a call -/

section Calls

variable {params : List String} {given given' : List KernelType}

/-- What stands for the dimensions of the arguments of a call. -/
def callReplacement (params : List String) (given : List KernelType) : Dim → Dim :=
  (DimNames.chosen [] (params.zip given)).replacement

variable (hlength : given.length = params.length)
include hlength

theorem symbol?_chosen :
    ∀ d ∈ openDims given, ((DimNames.chosen [] (params.zip given)).symbol? d).isSome := by
  rintro d ⟨hstatic, ty, hty, hd⟩
  obtain ⟨i, hi, rfl⟩ := List.getElem_of_mem hty
  refine (@DimNames.replaceTypes_eq (params.zip given) []).2 (params[i], given[i]) ?_ d hd
    hstatic
  exact List.mem_iff_getElem.mpr ⟨i, by simp; omega, by simp⟩

theorem isStatic_callReplacement :
    ∀ d ∈ openDims given, (callReplacement params given d).isStatic = false :=
  fun d hd => DimNames.isStatic_replacement (symbol?_chosen hlength d hd)

theorem injOn_callReplacement (hdistinct : params.Nodup) :
    Set.InjOn (callReplacement params given) (openDims given) := by
  have hnone : DimNames.Named (fun p _ => p ∈ []) [] :=
    ⟨List.nodup_nil, fun _ h => absurd h List.not_mem_nil⟩
  refine DimNames.injOn_replacement (DimNames.named_chosen _ hnone ?_ fun _ _ => List.not_mem_nil)
    (symbol?_chosen hlength)
  rwa [List.map_fst_zip (Nat.le_of_eq hlength.symm)]

/-- The parameters of a template have the types of the arguments, with their dimensions replaced. -/
theorem generalizeTypes_eq :
    generalizeTypes params given = given.map (KernelType.rename (callReplacement params given)) := by
  rw [generalizeTypes, (DimNames.replaceTypes_eq _).1]
  have hmap := congrArg (List.map (KernelType.rename (callReplacement params given)))
    (List.map_snd_zip (Nat.le_of_eq hlength))
  rwa [List.map_map] at hmap

/-- The types of two calls are the same exactly if the arguments of one are those of the other,
with other dimensions in the places of the open ones. -/
theorem generalizeTypes_eq_iff (hdistinct : params.Nodup) (hlength' : given'.length = params.length) :
    generalizeTypes params given = generalizeTypes params given' ↔
      ∃ σ, Set.BijOn σ (openDims given) (openDims given') ∧
        given' = given.map (KernelType.rename σ) := by
  constructor
  · intro h
    rw [generalizeTypes_eq hlength, generalizeTypes_eq hlength'] at h
    exact exists_bijOn_of_map_rename_eq (injOn_callReplacement hlength hdistinct)
      (injOn_callReplacement hlength' hdistinct) (isStatic_callReplacement hlength)
      (isStatic_callReplacement hlength') h
  · rintro ⟨σ, hσ, rfl⟩
    have hnone : ∀ entry ∈ ([] : DimNames), entry.1 ∈ openDims given := nofun
    exact (DimNames.replaceTypes_rename hσ.injOn (fun d hd => (hσ.mapsTo hd).1) params
      (Set.Subset.refl _) hnone).symm

end Calls

end TensorKernel
