import ClauseForm.Proofs.GeneratedNames
import ClauseForm.Proofs.Instances
import ClauseForm.Proofs.Legibility
import ClauseForm.Proofs.NamedForms

/-! Different formulas over a table of plain names have different texts, and so have clauses. -/

namespace ClauseForm

section Leaves

/-- Variables, constants and functions without arguments, from left to right, repeats kept. -/
def Term.leaves : Term → List AnySymbol :=
  fold (fun x => [⟨.var, x⟩]) (fun c => [⟨.const, c⟩]) fun f parts =>
    if parts.isEmpty then [⟨.func, f.toSymbol⟩] else parts.flatten

/-- The leaves of an application are those of its arguments, or the function if there are none. -/
@[simp] theorem Term.leaves_app (f : FunctionSymbol) (args : List Term) :
    (app f args).leaves =
      if args.isEmpty then [⟨.func, f.toSymbol⟩] else args.flatMap leaves := by
  simp [leaves, fold, foldAll_eq_map, List.flatMap]

/-- Variables, constants and functions without arguments in the terms of an atom. -/
def Atom.leaves (a : Atom) : List AnySymbol := a.args.flatMap Term.leaves

end Leaves

namespace SymbolTable

section Conditions

variable {table : SymbolTable} {leaves : List AnySymbol}

/-- Every known name consists of ASCII letters, digits and underscores, and is not empty. -/
def HasPlainNames (table : SymbolTable) : Prop :=
  ∀ (kind : Kind) (name : String), table.contains kind name = true → Named.isPlain name = true

/-- A table without names has plain names only. -/
theorem hasPlainNames_empty : empty.HasPlainNames := fun kind name known =>
  absurd ((contains_empty kind name).symm.trans known) Bool.false_ne_true

/-- Names remain plain when another plain name is interned. -/
theorem HasPlainNames.intern (plain : table.HasPlainNames) (kind : Kind) {name : String}
    (new : Named.isPlain name = true) : (table.intern kind name).2.HasPlainNames := by
  -- Every name is the new one or has been there before.
  intro other label known
  rcases of_contains_intern known with before | ⟨-, rfl⟩
  · exact plain other label before
  · exact new

/-- The name of a symbol is plain in a table of plain names. -/
theorem HasPlainNames.name? (plain : table.HasPlainNames) {kind : Kind} {s : Symbol kind}
    {name : String} (stored : table.name? s = some name) : Named.isPlain name = true :=
  plain kind name (contains_iff.mpr ⟨s, stored⟩)

/-- No name belongs to two kinds among some symbols. -/
def Unshared (table : SymbolTable) (leaves : List AnySymbol) : Prop :=
  ∀ s ∈ leaves, ∀ t ∈ leaves, table.name? s.2 = table.name? t.2 → s.1 = t.1

instance (table : SymbolTable) (leaves : List AnySymbol) : Decidable (table.Unshared leaves) :=
  inferInstanceAs (Decidable (∀ s ∈ leaves, ∀ t ∈ leaves,
    table.name? s.2 = table.name? t.2 → s.1 = t.1))

/-- What some symbols use their names for. -/
def usage (table : SymbolTable) (leaves : List AnySymbol) : Named.Usage :=
  fun kind name => ∃ s : Symbol kind, ⟨kind, s⟩ ∈ leaves ∧ table.name? s = some name

/-- No name is shared in the usage of symbols that do not share any. -/
theorem Unshared.usage (unshared : table.Unshared leaves) : (table.usage leaves).Unshared := by
  -- The names are those of symbols, and these are of one kind if the names are the same.
  rintro kind other name ⟨s, inside, stored⟩ ⟨t, listed, stored'⟩
  exact unshared ⟨kind, s⟩ inside ⟨other, t⟩ listed (stored.trans stored'.symm)

end Conditions

end SymbolTable

section Lists

variable {α β : Type} {step : α → Option β}

/-- Lists are the same if they are mapped to one list and their members are told apart by that. -/
theorem eq_of_mapM_eq {xs xs' : List α} {ys : List β} (first : xs.mapM step = some ys)
    (second : xs'.mapM step = some ys)
    (each : ∀ x ∈ xs, ∀ x' ∈ xs', ∀ y, step x = some y → step x' = some y → x = x') :
    xs = xs' := by
  -- The lists are compared member by member.
  rw [mapM_eq_some_iff] at first second
  induction first generalizing xs' with
  | nil => exact (List.forall₂_nil_right_iff.mp second).symm
  | @cons x y xs ys one _ ih =>
    obtain ⟨x', rest, two, others, rfl⟩ := List.forall₂_cons_right_iff.mp second
    rw [each x (by simp) x' (by simp) y one two]
    exact congrArg _ (ih others fun z inside z' listed =>
      each z (by simp [inside]) z' (by simp [listed]))

end Lists

section Reading

variable {table : SymbolTable} {leaves : List AnySymbol}

/-- A term over plain names is read as a legible one. -/
theorem Term.legible_named? (plain : table.HasPlainNames) {t : Term}
    (inside : ∀ s ∈ t.leaves, s ∈ leaves) {n : Named.Term} (read : t.named? table = some n) :
    n.Legible (table.usage leaves) := by
  -- Leaves have plain names, which are used as the usage says.
  induction t generalizing n with
  | var x =>
    obtain ⟨name, stored, rfl⟩ := Option.map_eq_some_iff.mp read
    exact ⟨plain.name? stored, x, inside _ (by simp [Term.leaves, fold]), stored⟩
  | const c =>
    obtain ⟨name, stored, rfl⟩ := Option.map_eq_some_iff.mp read
    exact ⟨plain.name? stored, c, inside _ (by simp [Term.leaves, fold]), stored⟩
  | app f args ih =>
    obtain ⟨name, stored, parts, written, rfl⟩ := named?_app_eq_some_iff.mp read
    have pairs := mapM_eq_some_iff.mp written
    refine Named.Term.legible_iff.mpr ⟨plain.name? stored, fun none => ?_, ?_⟩
    · -- The function is a leaf itself if there is nothing to apply it to.
      obtain rfl : parts = [] := none
      obtain rfl := List.forall₂_nil_right_iff.mp pairs
      exact ⟨f.toSymbol, inside ⟨.func, f.toSymbol⟩ (by simp), stored⟩
    · -- The leaves of an argument are leaves of the whole.
      refine forall_of_forall₂_right pairs fun t listed part written => ?_
      refine ih t listed (fun s leaf => inside s ?_) written
      rw [leaves_app, if_neg (by simp [List.ne_nil_of_mem listed])]
      exact List.mem_flatMap.mpr ⟨t, listed, leaf⟩

/-- An atom over plain names is read as a legible one. -/
theorem Atom.legible_named? (plain : table.HasPlainNames) {a : Atom}
    (inside : ∀ s ∈ a.leaves, s ∈ leaves) {n : Named.Atom} (read : a.named? table = some n) :
    n.Legible (table.usage leaves) := by
  -- The predicate has a plain name, and the arguments are terms.
  obtain ⟨name, stored, parts, written, rfl⟩ := named?_eq_some_iff.mp read
  refine ⟨plain.name? stored, forall_of_forall₂_right (mapM_eq_some_iff.mp written) ?_⟩
  exact fun t listed part => Term.legible_named? plain fun s leaf =>
    inside s (List.mem_flatMap.mpr ⟨t, listed, leaf⟩)

/-- A formula over plain names is read as a legible one. -/
theorem Formula.legible_named? (plain : table.HasPlainNames) {f : Formula}
    (inside : ∀ a ∈ f.atoms, ∀ s ∈ a.leaves, s ∈ leaves) {n : Named.Formula}
    (read : f.named? table = some n) : n.Legible (table.usage leaves) := by
  -- Every part of the formula is read by itself, and its atoms are atoms of the whole.
  induction f generalizing n with
  | atom a =>
    obtain ⟨written, same, rfl⟩ := Option.map_eq_some_iff.mp read
    exact Atom.legible_named? plain (inside a (by simp [atoms])) same
  | not f ih =>
    obtain ⟨written, same, rfl⟩ := Option.map_eq_some_iff.mp read
    have part : written.Legible (table.usage leaves) := ih inside same
    exact part
  | binary op l r left right =>
    obtain ⟨one, before, two, after, rfl⟩ := named?_binary_eq_some_iff.mp read
    simp only [atoms, List.forall_mem_append] at inside
    exact ⟨left inside.1 before, right inside.2 after⟩
  | quantified q x f ih =>
    obtain ⟨name, stored, body, written, rfl⟩ := named?_quantified_eq_some_iff.mp read
    exact ⟨plain.name? stored, ih inside written⟩

/-- A clause over plain names is read as one of legible atoms. -/
theorem Clause.legible_named? (plain : table.HasPlainNames) {c : Clause}
    (inside : ∀ a ∈ c.atoms, ∀ s ∈ a.leaves, s ∈ leaves) {n : Named.Clause}
    (read : c.named? table = some n) :
    ∀ l ∈ n.literals, l.atom.Legible (table.usage leaves) := by
  -- Each literal is read by itself, and so is its atom.
  obtain ⟨ls, written, rfl⟩ := Option.map_eq_some_iff.mp read
  refine forall_of_forall₂_right (mapM_eq_some_iff.mp written) fun l listed m part => ?_
  obtain ⟨a, atom, rfl⟩ := Option.map_eq_some_iff.mp part
  exact Atom.legible_named? plain (inside l.atom (List.mem_map_of_mem listed)) atom

/-- A clause is read as one with as many literals. -/
theorem Clause.literals_ne_nil_named? {c : Clause} (filled : c.literals ≠ []) {n : Named.Clause}
    (read : c.named? table = some n) : n.literals ≠ [] := by
  -- Literals are matched one to one with what they are read as.
  obtain ⟨ls, written, rfl⟩ := Option.map_eq_some_iff.mp read
  have pairs := mapM_eq_some_iff.mp written
  rintro rfl
  exact filled (List.forall₂_nil_right_iff.mp pairs)

end Reading

section Texts

variable {table : SymbolTable}

/-- Forms that are restored by what they are read as are the same if they are read as the same. -/
theorem Restored.eq {Written Form : Type} {intern : Written → SymbolTable → Form × SymbolTable}
    {named? : SymbolTable → Form → Option Written} {s t : Form} {n : Written}
    (first : Restored intern named? s) (second : Restored intern named? t)
    (read : named? table s = some n) (again : named? table t = some n) : s = t := by
  -- What is read is interned as both forms, from any table.
  have one := first table n read
  have two := second table n again
  exact congrArg Prod.fst (one.symm.trans two)

/-- Literals with fitting arities are the same if they are read as the same. -/
theorem Literal.eq_of_named? {l m : Literal} {n : Named.Literal}
    (fits : l.atom.hasFittingArities = true) (fits' : m.atom.hasFittingArities = true)
    (first : l.named? table = some n) (second : m.named? table = some n) : l = m := by
  -- The atoms are restored from what they are read as, and the signs are read as they are.
  obtain ⟨a, atom, rfl⟩ := Option.map_eq_some_iff.mp first
  obtain ⟨b, atom', same⟩ := Option.map_eq_some_iff.mp second
  obtain ⟨signs, rfl⟩ := Named.Literal.mk.inj same
  have atoms := (Atom.restored fits).eq (Atom.restored fits') atom atom'
  cases l
  cases m
  simp_all

/-- Clauses with fitting arities are the same if they are read as the same. -/
theorem Clause.eq_of_named? {c d : Clause} {n : Named.Clause}
    (fits : ∀ a ∈ c.atoms, a.hasFittingArities = true)
    (fits' : ∀ a ∈ d.atoms, a.hasFittingArities = true)
    (first : c.named? table = some n) (second : d.named? table = some n) : c = d := by
  -- Both lists of literals are read as the same list.
  obtain ⟨ls, read, rfl⟩ := Option.map_eq_some_iff.mp first
  obtain ⟨ms, again, same⟩ := Option.map_eq_some_iff.mp second
  obtain rfl := Named.Clause.mk.inj same
  have literals := eq_of_mapM_eq read again fun l inside m listed n =>
    Literal.eq_of_named? (fits l.atom (List.mem_map_of_mem inside))
      (fits' m.atom (List.mem_map_of_mem listed))
  cases c
  cases d
  exact congrArg Clause.mk literals

/-- What stands in the atoms on the left is among the leaves of both sides. -/
theorem mem_leaves_left {as : List Atom} (bs : List Atom) :
    ∀ a ∈ as, ∀ s ∈ a.leaves, s ∈ (as ++ bs).flatMap Atom.leaves :=
  fun a listed _ leaf => List.mem_flatMap.mpr ⟨a, List.mem_append_left bs listed, leaf⟩

/-- What stands in the atoms on the right is among the leaves of both sides. -/
theorem mem_leaves_right (as : List Atom) {bs : List Atom} :
    ∀ b ∈ bs, ∀ s ∈ b.leaves, s ∈ (as ++ bs).flatMap Atom.leaves :=
  fun b listed _ leaf => List.mem_flatMap.mpr ⟨b, List.mem_append_right as listed, leaf⟩

/-- Formulas that are shown alike are the same. -/
theorem Formula.eq_of_text (plain : table.HasPlainNames) {f g : Formula}
    (fits : f.hasFittingArities = true) (fits' : g.hasFittingArities = true)
    (unshared : table.Unshared ((f.atoms ++ g.atoms).flatMap Atom.leaves)) {n m : Named.Formula}
    (read : f.named? table = some n) (again : g.named? table = some m) (same : n.text = m.text) :
    f = g := by
  -- Each text is that of names that can be told apart, with the usage that both sides share.
  have first := legible_named? plain (mem_leaves_left g.atoms) read
  have second := legible_named? plain (mem_leaves_right f.atoms) again
  -- The text gives back the names, with nothing left behind them, and the names give the symbols.
  obtain ⟨rfl, -⟩ := first.toldApart unshared.usage second [] [] Named.endsFormula_nil
    Named.endsFormula_nil (by simp only [same])
  exact (restored fits).eq (restored fits') read again

/-- Clauses that are shown alike are the same, unless they are empty. -/
theorem Clause.eq_of_text (plain : table.HasPlainNames) {c d : Clause}
    (fits : ∀ a ∈ c.atoms, a.hasFittingArities = true)
    (fits' : ∀ a ∈ d.atoms, a.hasFittingArities = true)
    (filled : c.literals ≠ []) (filled' : d.literals ≠ [])
    (unshared : table.Unshared ((c.atoms ++ d.atoms).flatMap Atom.leaves)) {n m : Named.Clause}
    (read : c.named? table = some n) (again : d.named? table = some m) (same : n.text = m.text) :
    c = d := by
  have first := legible_named? plain (mem_leaves_left d.atoms) read
  have second := legible_named? plain (mem_leaves_right c.atoms) again
  -- With its names a clause is as long as it is without.
  have written := literals_ne_nil_named? filled read
  have written' := literals_ne_nil_named? filled' again
  obtain rfl := Named.Clause.eq_of_text unshared.usage first second written written' same
  exact eq_of_named? fits fits' read again

/--
Every formula over a table of plain names has a text, and the text tells it from all others, however
deep they are nested and whatever their symbols are called. Function and predicate symbols need to
have as many arguments as their arities say, and no name may belong to two kinds among the
variables, the constants and the functions without arguments that stand in terms. So it is with
clauses that are not empty.
-/
theorem texts_unambiguous (plain : table.HasPlainNames) :
    (∀ f g : Formula, f.Known table → g.Known table →
      f.hasFittingArities = true → g.hasFittingArities = true →
      table.Unshared ((f.atoms ++ g.atoms).flatMap Atom.leaves) →
      ∃ s t, f.text? table = some s ∧ g.text? table = some t ∧ (s = t → f = g)) ∧
    ∀ c d : Clause, c.Known table → d.Known table →
      (∀ a ∈ c.atoms, a.hasFittingArities = true) → (∀ a ∈ d.atoms, a.hasFittingArities = true) →
      c.literals ≠ [] → d.literals ≠ [] →
      table.Unshared ((c.atoms ++ d.atoms).flatMap Atom.leaves) →
      ∃ s t, c.text? table = some s ∧ d.text? table = some t ∧ (s = t → c = d) := by
  constructor
  · -- Known formulas are shown by the names of their symbols.
    intro f g known known' fits fits' unshared
    obtain ⟨n, read⟩ := Option.isSome_iff_exists.mp known.named
    obtain ⟨m, again⟩ := Option.isSome_iff_exists.mp known'.named
    refine ⟨n.text, m.text, by simp [Formula.text?, read], by simp [Formula.text?, again], ?_⟩
    exact Formula.eq_of_text plain fits fits' unshared read again
  · -- So are known clauses.
    intro c d known known' fits fits' filled filled' unshared
    obtain ⟨n, read⟩ := Option.isSome_iff_exists.mp known.named
    obtain ⟨m, again⟩ := Option.isSome_iff_exists.mp known'.named
    refine ⟨n.text, m.text, by simp [Clause.text?, read], by simp [Clause.text?, again], ?_⟩
    exact Clause.eq_of_text plain fits fits' filled filled' unshared read again

-- A variable and a constant of one name look alike, so that names may not be shared.
example : (Term.var ⟨0⟩).text? ((SymbolTable.empty.intern .var "a").2.intern .const "a").2 =
    (Term.const ⟨0⟩).text? ((SymbolTable.empty.intern .var "a").2.intern .const "a").2 := by
  decide +kernel

end Texts

section Words

/-- A variable, a predicate and a function whose names are the words for the quantifiers. -/
def wordSymbols : SymbolTable :=
  (((SymbolTable.empty.intern .var "all").2.intern .pred "all").2.intern .func "some").2

/-- The predicate of the variable and of a term. -/
def allOf (t : Term) : Atom :=
  { predicate := { id := 0, arity := 2 }, args := [.var ⟨0⟩, t] }

/-- The function without arguments and the function of that. -/
def someOf : Term := .app { id := 0, arity := 1 } [.app { id := 0, arity := 0 } []]

/-- All this around a connective. -/
def allAround (op : Connective) : Formula :=
  .quantified .universal ⟨0⟩ (.binary op (.atom (allOf someOf)) (.not (.atom (allOf someOf))))

/-- An atom and its denial, in either order. -/
def allEither (positive : Bool) : Clause where
  literals := [⟨positive, allOf someOf⟩, ⟨!positive, allOf someOf⟩]

/-- Texts differ by one connective or by the order of literals, although names look like words. -/
theorem texts_unambiguous_words :
    (allAround .implies).text? wordSymbols ≠ (allAround .iff).text? wordSymbols ∧
    (allEither true).text? wordSymbols ≠ (allEither false).text? wordSymbols := by
  -- All words are plain names, those for quantifiers among them.
  have plain : wordSymbols.HasPlainNames :=
    ((SymbolTable.hasPlainNames_empty.intern .var (by decide)).intern .pred (by decide)).intern
      .func (by decide)
  have texts := texts_unambiguous plain
  constructor
  · obtain ⟨s, t, first, second, told⟩ := texts.1 (allAround .implies) (allAround .iff)
      (by decide +kernel) (by decide +kernel) (by decide) (by decide) (by decide +kernel)
    rw [first, second]
    exact fun same => absurd (told (Option.some.inj same)) (by decide)
  · obtain ⟨s, t, first, second, told⟩ := texts.2 (allEither true) (allEither false)
      (by decide +kernel) (by decide +kernel) (by decide) (by decide) (by decide) (by decide)
      (by decide +kernel)
    rw [first, second]
    exact fun same => absurd (told (Option.some.inj same)) (by decide)

end Words

end ClauseForm
