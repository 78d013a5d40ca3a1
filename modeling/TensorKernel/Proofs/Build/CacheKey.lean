import Mathlib.Tactic.Tauto
import TensorKernel.Proofs.Build.Registry

/-!
# Keys of cached graphs

A graph is cached under a text that holds the name of the function and, for a template, the types of
its parameters.  If names are plain then the text determines both: every name in it ends where a
separator stands.  A name with a separator in it may be confused with another key.
-/

namespace TensorKernel

/-- What separates the parts of a key. -/
def separators : List Char := ['(', ')', '[', ']', ',', ' ']

/-- A name in which nothing looks like a separator. -/
def PlainName (name : String) : Prop :=
  ∀ c ∈ name.toList, c ∉ separators

instance (name : String) : Decidable (PlainName name) :=
  List.decidableBAll (fun c => c ∉ separators) name.toList

/-! ## Texts that end at a separator -/

/-- A rest of a text that starts with a separator. -/
def AtSeparator (rest : List Char) : Prop :=
  ∃ c ∈ separators, ∃ after, rest = c :: after

theorem atSeparator_cons {c : Char} (h : c ∈ separators) (after : List Char) :
    AtSeparator (c :: after) :=
  ⟨c, h, after, rfl⟩

/-- A rest of a text that starts where a dimension or a type has ended. -/
def AtEnd (rest : List Char) : Prop :=
  ∃ c ∈ [')', ']', ','], ∃ after, rest = c :: after

theorem atEnd_cons {c : Char} (h : c ∈ [')', ']', ',']) (after : List Char) : AtEnd (c :: after) :=
  ⟨c, h, after, rfl⟩

theorem AtEnd.atSeparator {rest : List Char} (h : AtEnd rest) : AtSeparator rest := by
  obtain ⟨c, hc, after, rfl⟩ := h
  refine atSeparator_cons ?_ after
  simp only [List.mem_cons, List.not_mem_nil, or_false] at hc
  rcases hc with rfl | rfl | rfl <;> decide

/-- What has no separator in it ends where the rest starts. -/
theorem plain_append_inj {xs ys rest rest' : List Char} (hxs : ∀ c ∈ xs, c ∉ separators)
    (hys : ∀ c ∈ ys, c ∉ separators) (hrest : AtSeparator rest) (hrest' : AtSeparator rest')
    (h : xs ++ rest = ys ++ rest') : xs = ys ∧ rest = rest' := by
  induction xs generalizing ys with
  | nil =>
    cases ys with
    | nil => exact ⟨rfl, h⟩
    | cons y ys =>
      obtain ⟨c, hc, after, rfl⟩ := hrest
      obtain ⟨rfl, -⟩ := List.cons.inj h
      exact absurd hc (hys c (List.mem_cons_self ..))
  | cons x xs ih =>
    cases ys with
    | nil =>
      obtain ⟨c, hc, after, rfl⟩ := hrest'
      obtain ⟨rfl, -⟩ := List.cons.inj h
      exact absurd hc (hxs x (List.mem_cons_self ..))
    | cons y ys =>
      obtain ⟨rfl, htail⟩ := List.cons.inj h
      obtain ⟨rfl, hsame⟩ := ih (fun c hc => hxs c (List.mem_cons_of_mem _ hc))
        (fun c hc => hys c (List.mem_cons_of_mem _ hc)) htail
      exact ⟨rfl, hsame⟩

/-- A way to write things that can be told from their texts, as they end where something else starts. -/
structure Readable {α : Type} (write : α → List Char) (ok : α → Prop) : Prop where
  inj : ∀ {a b rest rest'}, ok a → ok b → AtEnd rest → AtEnd rest' →
    write a ++ rest = write b ++ rest' → a = b ∧ rest = rest'
  head : ∀ {a}, ok a → ∃ c ∉ separators, ∃ after, write a = c :: after

section Lists

variable {α : Type} (write : α → List Char) (stop : Char)

/-- The things after the first one of a list, up to the end of the list. -/
def writeTail : List α → List Char
  | [] => [stop]
  | a :: as => ',' :: ' ' :: (write a ++ writeTail as)

/-- The things of a list, up to its end. -/
def writeList : List α → List Char
  | [] => [stop]
  | a :: as => write a ++ writeTail write stop as

variable {write stop}

theorem atEnd_writeTail (hstop : stop = ')' ∨ stop = ']') (as : List α) (rest : List Char) :
    AtEnd (writeTail write stop as ++ rest) := by
  cases as with
  | nil => rcases hstop with rfl | rfl <;> exact atEnd_cons (by decide) _
  | cons a as => exact atEnd_cons (by decide) _

variable {ok : α → Prop} (hwrite : Readable write ok)
include hwrite

theorem writeTail_inj (hstop : stop = ')' ∨ stop = ']') {as bs : List α}
    {rest rest' : List Char} (has : ∀ a ∈ as, ok a) (hbs : ∀ b ∈ bs, ok b)
    (h : writeTail write stop as ++ rest = writeTail write stop bs ++ rest') :
    as = bs ∧ rest = rest' := by
  induction as generalizing bs with
  | nil =>
    cases bs with
    | nil => exact ⟨rfl, (List.cons.inj h).2⟩
    | cons b bs =>
      have heq : stop = ',' := (List.cons.inj h).1
      rcases hstop with rfl | rfl <;> cases heq
  | cons a as ih =>
    cases bs with
    | nil =>
      have heq : ',' = stop := (List.cons.inj h).1
      rcases hstop with rfl | rfl <;> cases heq
    | cons b bs =>
      have htail : write a ++ (writeTail write stop as ++ rest) =
          write b ++ (writeTail write stop bs ++ rest') := by
        simpa [writeTail] using h
      obtain ⟨rfl, hrest⟩ := hwrite.inj (has a (List.mem_cons_self ..)) (hbs b (List.mem_cons_self ..))
        (atEnd_writeTail hstop as rest) (atEnd_writeTail hstop bs rest')
        htail
      obtain ⟨rfl, hsame⟩ := ih (fun a ha => has a (List.mem_cons_of_mem _ ha))
        (fun b hb => hbs b (List.mem_cons_of_mem _ hb)) hrest
      exact ⟨rfl, hsame⟩

theorem writeList_inj (hstop : stop = ')' ∨ stop = ']') {as bs : List α}
    {rest rest' : List Char} (has : ∀ a ∈ as, ok a) (hbs : ∀ b ∈ bs, ok b)
    (h : writeList write stop as ++ rest = writeList write stop bs ++ rest') :
    as = bs ∧ rest = rest' := by
  -- A list without members is told apart by the separator at its end.
  have hnil : ∀ {b : α} {bs : List α} {rest rest' : List Char}, ok b →
      writeList write stop [] ++ rest ≠ writeList write stop (b :: bs) ++ rest' := by
    intro b bs rest rest' hb heq
    obtain ⟨c, hc, after, hafter⟩ := hwrite.head hb
    rw [writeList, writeList, hafter] at heq
    obtain ⟨rfl, -⟩ := List.cons.inj heq
    rcases hstop with rfl | rfl <;> exact hc (by decide)
  cases as with
  | nil =>
    cases bs with
    | nil => exact ⟨rfl, (List.cons.inj h).2⟩
    | cons b bs => exact absurd h (hnil (hbs b (List.mem_cons_self ..)))
  | cons a as =>
    cases bs with
    | nil => exact absurd h.symm (hnil (has a (List.mem_cons_self ..)))
    | cons b bs =>
      rw [writeList, writeList, List.append_assoc, List.append_assoc] at h
      obtain ⟨rfl, hrest⟩ := hwrite.inj (has a (List.mem_cons_self ..)) (hbs b (List.mem_cons_self ..))
        (atEnd_writeTail hstop as rest) (atEnd_writeTail hstop bs rest') h
      obtain ⟨rfl, hsame⟩ := writeTail_inj hwrite hstop
        (fun a ha => has a (List.mem_cons_of_mem _ ha))
        (fun b hb => hbs b (List.mem_cons_of_mem _ hb)) hrest
      exact ⟨rfl, hsame⟩

end Lists

/-- Texts with commas between them, and a last character, are written one after another. -/
theorem toList_intercalate {α : Type} (text : α → String) (stop : Char) (as : List α) :
    (", ".intercalate (as.map text)).toList ++ [stop] =
      writeList (fun a => (text a).toList) stop as := by
  have htail : ∀ (a : α) (as : List α), (", ".intercalate ((a :: as).map text)).toList ++ [stop] =
      (text a).toList ++ writeTail (fun a => (text a).toList) stop as := by
    intro a as
    induction as generalizing a with
    | nil => simp [writeTail]
    | cons b bs ih =>
      rw [List.map_cons, List.map_cons, String.intercalate_cons_cons, ← List.map_cons]
      simp [writeTail, ← ih]
  cases as with
  | nil => simp [writeList]
  | cons a as => exact htail a as

/-! ## Dimensions and types -/

/-- A dimension of a template's parameter: a constant, or a symbol with a plain name. -/
def Dim.Keyed : Dim → Prop
  | .const _ => True
  | .sym name => PlainName name ∧ '_' ∈ name.toList
  | .node _ => False

/-- A type of a template's parameter. -/
def KernelType.Keyed (ty : KernelType) : Prop :=
  ∀ d ∈ ty.shape, d.Keyed

theorem isDigit_of_mem_natRepr {n : Nat} {c : Char} (h : c ∈ n.repr.toList) : c.isDigit = true := by
  rw [Nat.toList_repr] at h
  exact Nat.isDigit_of_mem_toDigits (by decide) (by decide) h

/-- A number is written with digits and a sign. -/
theorem mem_repr {n : Int} {c : Char} (h : c ∈ n.repr.toList) : c = '-' ∨ c.isDigit = true := by
  rw [Int.repr_eq_if] at h
  split at h
  · exact Or.inr (isDigit_of_mem_natRepr h)
  · rw [String.toList_append, List.mem_append] at h
    exact h.imp (fun h => by simpa using h) isDigit_of_mem_natRepr

theorem repr_plain (n : Int) : ∀ c ∈ n.repr.toList, c ∉ separators := by
  intro c hc hsep
  simp only [separators, List.mem_cons, List.not_mem_nil, or_false] at hsep
  rcases mem_repr hc with rfl | hdigit
  · revert hsep
    decide
  · rcases hsep with rfl | rfl | rfl | rfl | rfl | rfl <;> exact absurd hdigit (by decide)

theorem underscore_not_mem_repr (n : Int) : '_' ∉ n.repr.toList := by
  intro h
  rcases mem_repr h with h | h
  · exact absurd h (by decide)
  · exact absurd h (by decide)

theorem repr_ne_nil (n : Int) : n.repr.toList ≠ [] := by
  rw [Int.repr_eq_if]
  split
  · rw [Nat.toList_repr]
    exact Nat.toDigits_ne_nil
  · simp

/-- The digits of a number determine it. -/
theorem natRepr_inj {n m : Nat} (h : n.repr = m.repr) : n = m := by
  have hdigits : Nat.toDigits 10 n = Nat.toDigits 10 m := by
    rw [← Nat.toList_repr, ← Nat.toList_repr, h]
  rw [← @Nat.ofDigitChars_ten_toDigits n, hdigits, Nat.ofDigitChars_ten_toDigits]

theorem repr_inj {n m : Int} (h : n.repr = m.repr) : n = m := by
  have hsign : ∀ {k l : Nat}, k.repr ≠ "-" ++ l.repr := by
    intro k l heq
    exact absurd (isDigit_of_mem_natRepr (n := k) (by rw [heq]; simp) : '-'.isDigit = true) (by decide)
  rw [Int.repr_eq_if, Int.repr_eq_if] at h
  split at h <;> split at h
  · have := natRepr_inj h
    omega
  · exact absurd h hsign
  · exact absurd h.symm hsign
  · have := natRepr_inj (String.append_right_inj _ |>.mp h)
    omega

theorem typeName_plain (sz : ElemSize) : PlainName sz.typeName := by
  cases sz <;> decide

theorem typeName_ne_nil (sz : ElemSize) : sz.typeName.toList ≠ [] := by
  cases sz <;> decide

theorem typeName_inj {sz sz' : ElemSize} (h : sz.typeName.toList = sz'.typeName.toList) : sz = sz' := by
  have hname := congrArg ElemSize.ofTypeName? (String.toList_injective h)
  rw [ElemSize.ofTypeName?_typeName, ElemSize.ofTypeName?_typeName] at hname
  exact Option.some.inj hname

/-- A text that is not empty and has no separator starts with something else. -/
theorem exists_head_of_plain {xs : List Char} (hne : xs ≠ []) (h : ∀ c ∈ xs, c ∉ separators) :
    ∃ c ∉ separators, ∃ after, xs = c :: after := by
  cases xs with
  | nil => exact absurd rfl hne
  | cons c after => exact ⟨c, h c (List.mem_cons_self ..), after, rfl⟩

theorem Dim.Keyed.plain {d : Dim} (h : d.Keyed) : ∀ c ∈ d.text.toList, c ∉ separators := by
  cases d with
  | const n => exact repr_plain n
  | sym name => exact h.1
  | node id => exact h.elim

theorem Dim.readable : Readable (fun d : Dim => d.text.toList) Dim.Keyed where
  inj {d d' rest rest'} hd hd' hrest hrest' h := by
    obtain ⟨htext, hsame⟩ := plain_append_inj hd.plain hd'.plain hrest.atSeparator hrest'.atSeparator h
    refine ⟨?_, hsame⟩
    cases d with
    | const n =>
      cases d' with
      | const n' => rw [repr_inj (String.toList_injective htext)]
      | sym name =>
        -- Only names have an underscore in them.
        exact absurd (htext ▸ hd'.2 : '_' ∈ n.repr.toList) (underscore_not_mem_repr n)
      | node id => exact hd'.elim
    | sym name =>
      cases d' with
      | const n' =>
        exact absurd (htext ▸ hd.2 : '_' ∈ n'.repr.toList) (underscore_not_mem_repr n')
      | sym name' => rw [show name = name' from String.toList_injective htext]
      | node id => exact hd'.elim
    | node id => exact hd.elim
  head {d} hd := by
    refine exists_head_of_plain ?_ hd.plain
    cases d with
    | const n => exact repr_ne_nil n
    | sym name => exact List.ne_nil_of_mem hd.2
    | node id => exact hd.elim

theorem KernelType.text_toList (ty : KernelType) : ty.text.toList =
    ty.elemSize.typeName.toList ++
      if ty.isScalar then [] else '[' :: writeList (fun d : Dim => d.text.toList) ']' ty.shape := by
  cases ty with
  | scalar sz => simp [text, elemSize, isScalar]
  | tensor sz shape =>
    have htext : (KernelType.tensor sz shape).text = sz.typeName ++ "[" ++ Shape.text shape ++ "]" := rfl
    rw [htext, String.toList_append, String.toList_append, String.toList_append]
    simp only [elemSize, isScalar, KernelType.shape, Shape.text, ← toList_intercalate]
    simp

theorem KernelType.readable : Readable (fun ty : KernelType => ty.text.toList) KernelType.Keyed where
  inj {ty ty' rest rest'} hty hty' hrest hrest' h := by
    -- Behind the element size stands a bracket or the end of the type.
    have hbehind : ∀ (ty : KernelType) {rest}, AtEnd rest → AtSeparator
        ((if ty.isScalar then [] else '[' :: writeList (fun d : Dim => d.text.toList) ']' ty.shape)
          ++ rest) := by
      intro ty rest hrest
      cases ty with
      | scalar sz => exact hrest.atSeparator
      | tensor sz shape => exact atSeparator_cons (by decide) _
    have hopen : ∀ {rest after : List Char}, AtEnd rest → rest ≠ '[' :: after := by
      rintro rest after ⟨c, hc, _, rfl⟩ heq
      obtain ⟨rfl, -⟩ := List.cons.inj heq
      exact absurd hc (by decide)
    rw [ty.text_toList, ty'.text_toList, List.append_assoc, List.append_assoc] at h
    obtain ⟨hname, hbody⟩ := plain_append_inj (typeName_plain _) (typeName_plain _)
      (hbehind ty hrest) (hbehind ty' hrest') h
    have hsize := typeName_inj hname
    cases ty with
    | scalar sz =>
      cases ty' with
      | scalar sz' => exact ⟨congrArg KernelType.scalar hsize, hbody⟩
      | tensor sz' shape' => exact absurd hbody (hopen hrest)
    | tensor sz shape =>
      cases ty' with
      | scalar sz' => exact absurd hbody.symm (hopen hrest')
      | tensor sz' shape' =>
        obtain ⟨hshape, hsame⟩ := writeList_inj Dim.readable (Or.inr rfl) hty hty'
          (List.cons.inj hbody).2
        exact ⟨congr (congrArg KernelType.tensor hsize) hshape, hsame⟩
  head {ty} _ := by
    obtain ⟨c, hc, after, hafter⟩ :=
      exists_head_of_plain (typeName_ne_nil ty.elemSize) (typeName_plain ty.elemSize)
    exact ⟨c, hc, _, by rw [ty.text_toList, hafter]; rfl⟩

/-! ## Types of templates -/

namespace DimNames

/-- The symbols that were chosen are plain. -/
def Keyed (names : DimNames) : Prop :=
  ∀ entry ∈ names, (Dim.sym entry.2).Keyed

theorem keyed_new {param : String} (hparam : PlainName param) (axis : Nat) :
    (Dim.sym s!"{param}_dim{axis}").Keyed := by
  have htext : s!"{param}_dim{axis}" = param ++ "_dim" ++ axis.repr := rfl
  rw [htext]
  constructor
  · intro c hc
    rw [String.toList_append, String.toList_append, List.mem_append, List.mem_append] at hc
    rcases hc with (hc | hc) | hc
    · exact hparam c hc
    · exact (show PlainName "_dim" by decide) c hc
    · exact repr_plain axis c hc
  · simp

theorem keyed_of_symbol? {names : DimNames} (h : names.Keyed) {d : Dim} {name : String}
    (hname : names.symbol? d = some name) : (Dim.sym name).Keyed := by
  obtain ⟨entry, hentry, rfl⟩ := Option.map_eq_some_iff.mp hname
  exact h entry (List.mem_of_find?_eq_some hentry)

theorem keyed_replaceShape {param : String} (hparam : PlainName param) (shape : Shape) :
    ∀ (axis : Nat) {names : DimNames}, names.Keyed →
      (∀ d ∈ (replaceShape param names axis shape).1, d.Keyed) ∧
        (replaceShape param names axis shape).2.Keyed := by
  induction shape with
  | nil => exact fun _ _ h => ⟨nofun, h⟩
  | cons head rest ih =>
    intro axis names h
    cases head with
    | const n =>
      obtain ⟨hdims, hnames⟩ := ih (axis + 1) h
      refine ⟨fun d hd => ?_, hnames⟩
      rcases List.mem_cons.mp hd with rfl | hd
      · trivial
      · exact hdims d hd
    | sym _ | node _ =>
      simp only [replaceShape]
      split
      -- A dimension that was seen before keeps the name that it got then.
      · next name hname =>
        obtain ⟨hdims, hnames⟩ := ih (axis + 1) h
        refine ⟨fun d hd => ?_, hnames⟩
        rcases List.mem_cons.mp hd with rfl | hd
        · exact keyed_of_symbol? h hname
        · exact hdims d hd
      -- A new one gets the name of its parameter and axis, which joins the list.
      · have hnew := keyed_new hparam axis
        have hnames' : ∀ d : Dim, DimNames.Keyed (names ++ [(d, s!"{param}_dim{axis}")]) := by
          intro d entry hentry
          rcases List.mem_append.mp hentry with hentry | hentry
          · exact h entry hentry
          · rw [List.mem_singleton.mp hentry]
            exact hnew
        obtain ⟨hdims, hnames⟩ := ih (axis + 1) (hnames' _)
        refine ⟨fun d hd => ?_, hnames⟩
        rcases List.mem_cons.mp hd with rfl | hd
        · exact hnew
        · exact hdims d hd

theorem keyed_replaceTypes (given : List (String × KernelType)) :
    ∀ {names : DimNames}, names.Keyed → (∀ p ∈ given, PlainName p.1) →
      ∀ ty ∈ replaceTypes names given, ty.Keyed := by
  induction given with
  | nil => exact fun _ _ => nofun
  | cons entry rest ih =>
    intro names h hparams ty hty
    obtain ⟨param, given⟩ := entry
    have hrest : ∀ p ∈ rest, PlainName p.1 := fun p hp => hparams p (List.mem_cons_of_mem _ hp)
    cases given with
    | scalar sz =>
      rcases List.mem_cons.mp hty with rfl | hty
      · exact fun d hd => nomatch hd
      · exact ih h hrest ty hty
    | tensor sz shape =>
      obtain ⟨hdims, hnames⟩ :=
        keyed_replaceShape (hparams (param, _) (List.mem_cons_self ..)) shape 0 h
      rcases List.mem_cons.mp hty with rfl | hty
      · exact hdims
      · exact ih hnames hrest ty hty

end DimNames

namespace Registry

/-- The types of a template whose parameters have plain names. -/
theorem keyed_paramTypes {f : FunctionDef} (hparams : ∀ p ∈ f.params, PlainName p.id)
    {given : List KernelType} {span : Span} {types : List KernelType}
    (h : paramTypes f given span = .ok (some types)) : ∀ ty ∈ types, ty.Keyed := by
  unfold paramTypes at h
  split at h
  · split at h
    · obtain rfl := Option.some.inj (Except.ok.inj h)
      refine DimNames.keyed_replaceTypes _ nofun fun p hp => ?_
      obtain ⟨param, hparam, hname⟩ := List.mem_map.mp (List.of_mem_zip hp).1
      exact hname ▸ hparams param hparam
    · cases h
  · cases h

/-! ## Keys -/

/-- Behind the name of a function stands nothing or a bracket. -/
theorem cacheKey_toList (id : String) (types : Option (List KernelType)) :
    (cacheKey id types).toList = id.toList ++
      match types with
      | none => []
      | some types => '(' :: writeList (fun ty : KernelType => ty.text.toList) ')' types := by
  cases types with
  | none => simp [cacheKey]
  | some types =>
    have htext : cacheKey id (some types) =
        id ++ "(" ++ ", ".intercalate (types.map KernelType.text) ++ ")" := rfl
    rw [htext, String.toList_append, String.toList_append, String.toList_append]
    simp only [← toList_intercalate]
    simp

/-- Names without brackets can be told from the keys of their graphs. -/
theorem cacheKey_id {id id' : String} {types types' : Option (List KernelType)}
    (hid : '(' ∉ id.toList) (hid' : '(' ∉ id'.toList) (h : cacheKey id types = cacheKey id' types') :
    id = id' := by
  have hfront : ∀ {id : String} (types : Option (List KernelType)), '(' ∉ id.toList →
      (cacheKey id types).toList.takeWhile (· ≠ '(') = id.toList := by
    intro id types hid
    have hall : ∀ c ∈ id.toList, decide (c ≠ '(') = true := fun c hc => by
      rw [decide_eq_true_eq]
      rintro rfl
      exact hid hc
    rw [cacheKey_toList, List.takeWhile_append_of_pos hall]
    cases types <;> simp
  exact String.toList_injective ((hfront types hid).symm.trans (h ▸ hfront types' hid'))

/-- With plain names a key determines the types as well. -/
theorem cacheKey_types {id : String} {types types' : Option (List KernelType)}
    (htypes : ∀ tys, types = some tys → ∀ ty ∈ tys, ty.Keyed)
    (htypes' : ∀ tys, types' = some tys → ∀ ty ∈ tys, ty.Keyed)
    (h : cacheKey id types = cacheKey id types') : types = types' := by
  have hlist := congrArg String.toList h
  rw [cacheKey_toList, cacheKey_toList, List.append_cancel_left_eq] at hlist
  cases types with
  | none => cases types' with
    | none => rfl
    | some tys' => cases hlist
  | some tys => cases types' with
    | none => cases hlist
    | some tys' =>
      have hwritten := congrArg (· ++ []) (List.cons.inj hlist).2
      rw [(writeList_inj KernelType.readable (Or.inl rfl) (htypes tys rfl) (htypes' tys' rfl)
        hwritten).1]

end Registry

end TensorKernel
