import ClauseForm.Named.Formula

/-!
Formulas and clauses written with plain names can be told from their texts, whatever follows them,
as long as each name that stands without arguments belongs to one kind.
-/

namespace ClauseForm.Named

section Texts

variable {α : Type} {text : α → List Char} {ends : List Char → Prop} {sep : List Char} {a b : α}

/--
Two things are told apart by their texts: where either text begins the same string, and goes on as
it may, both things are the same and so is what follows them.
-/
def ToldApart (text : α → List Char) (ends : List Char → Prop) (a b : α) : Prop :=
  ∀ r s, ends r → ends s → text a ++ r = text b ++ s → a = b ∧ r = s

/-- Items with a separator in front of each. -/
def separated (sep : List Char) (text : α → List Char) (as : List α) : List Char :=
  as.flatMap fun a => sep ++ text a

/-- After the last item of a list there is no further separator. -/
def EndsList (ends : List Char → Prop) (sep rest : List Char) : Prop :=
  ends rest ∧ ¬ sep <+: rest

/-- What follows an item is a separator or the end of the list. -/
theorem EndsList.after {rest : List Char} (done : EndsList ends sep rest)
    (between : ∀ r, ends (sep ++ r)) (as : List α) : ends (separated sep text as ++ rest) := by
  -- Without items the list has ended.
  cases as with
  | nil => exact done.1
  | cons a as =>
    rw [separated, List.flatMap_cons, List.append_assoc, List.append_assoc]
    exact between _

/-- Items in front of lists are told apart, and then the lists are. -/
theorem ToldApart.cons {as bs : List α} {r s : List Char} (between : ∀ r, ends (sep ++ r))
    (head : ToldApart text ends a b)
    (tail : ToldApart (separated sep text) (EndsList ends sep) as bs)
    (doneR : EndsList ends sep r) (doneS : EndsList ends sep s)
    (same : text a ++ (separated sep text as ++ r) = text b ++ (separated sep text bs ++ s)) :
    a :: as = b :: bs ∧ r = s := by
  -- The first items end where the lists go on or stop.
  obtain ⟨rfl, others⟩ := head _ _ (doneR.after between as) (doneS.after between bs) same
  obtain ⟨rfl, rfl⟩ := tail r s doneR doneS others
  exact ⟨rfl, rfl⟩

/-- Items with a separator in front of each are told apart as lists. -/
theorem ToldApart.list {as bs : List α} (between : ∀ r, ends (sep ++ r))
    (each : ∀ a ∈ as, ∀ b ∈ bs, ToldApart text ends a b) :
    ToldApart (separated sep text) (EndsList ends sep) as bs := by
  -- The lists are read item by item, and neither of them stops where the other goes on.
  induction as generalizing bs with
  | nil =>
    intro r s doneR doneS same
    cases bs with
    | nil => exact ⟨rfl, same⟩
    | cons b bs =>
      have further : sep <+: r := ⟨_, by simpa [separated] using same.symm⟩
      exact absurd further doneR.2
  | cons a as ih =>
    intro r s doneR doneS same
    cases bs with
    | nil =>
      have further : sep <+: s := ⟨_, by simpa [separated] using same⟩
      exact absurd further doneS.2
    | cons b bs =>
      -- Both start with the separator, and an item follows.
      simp only [separated, List.flatMap_cons, List.append_assoc,
        List.append_cancel_left_eq] at same
      have tail := ih fun x inside y (listed : y ∈ bs) =>
        each x (by simp [inside]) y (by simp [listed])
      exact ToldApart.cons between (each a (by simp) b (by simp)) tail doneR doneS same

/-- A joined list is its first item and then the others, each after a separator. -/
theorem toList_intercalate_cons (sep : String) (text : α → String) (a : α) (as : List α) :
    (sep.intercalate ((a :: as).map text)).toList =
      (text a).toList ++ separated sep.toList (fun b => (text b).toList) as := by
  -- The separator belongs to the item behind it.
  induction as generalizing a with
  | nil => simp [separated]
  | cons b as ih =>
    -- The second item is the first of the others.
    rw [List.map_cons, List.map_cons, String.intercalate_cons_cons, ← List.map_cons,
      String.toList_append, String.toList_append, ih]
    simp only [separated, List.flatMap_cons, List.append_assoc]

/-- Lists that are not empty are told apart when they are joined. -/
theorem ToldApart.intercalate {as bs : List α} {text : α → String} {sep : String}
    (between : ∀ r, ends (sep.toList ++ r))
    (each : ∀ a ∈ as, ∀ b ∈ bs, ToldApart (fun a => (text a).toList) ends a b)
    (filled : as ≠ []) (filled' : bs ≠ []) :
    ToldApart (fun as => (sep.intercalate (as.map text)).toList) (EndsList ends sep.toList)
      as bs := by
  -- Neither list is empty, so that both have a first item.
  intro r s doneR doneS same
  obtain ⟨a, as, rfl⟩ := List.exists_cons_of_ne_nil filled
  obtain ⟨b, bs, rfl⟩ := List.exists_cons_of_ne_nil filled'
  simp only [toList_intercalate_cons, List.append_assoc] at same
  -- The first items have no separator in front of them.
  have tail := ToldApart.list between fun x (inside : x ∈ as) y (listed : y ∈ bs) =>
    each x (by simp [inside]) y (by simp [listed])
  exact ToldApart.cons between (each a (by simp) b (by simp)) tail doneR doneS same

end Texts

section Names

/-- Plain names are written with ASCII letters, digits and underscores. -/
def isPlainChar (c : Char) : Bool := c.isAlphanum || c == '_'

/-- Whether a name is plain and not empty. -/
def isPlain (name : String) : Bool := name ≠ "" && name.toList.all isPlainChar

/-- What follows a name is no further part of it. -/
def EndsName (rest : List Char) : Prop := ∀ c ∈ rest.head?, isPlainChar c = false

/-- Nothing that follows does not go on with a name. -/
@[simp] theorem endsName_nil : EndsName [] := by simp [EndsName]

/-- A character that no plain name has ends a name. -/
@[simp] theorem endsName_cons {c : Char} {rest : List Char} :
    EndsName (c :: rest) ↔ isPlainChar c = false := by
  simp [EndsName]

/-- A plain name begins with one of the characters of plain names. -/
theorem exists_cons_of_isPlain {name : String} (plain : isPlain name = true) :
    ∃ c rest, name.toList = c :: rest ∧ isPlainChar c = true := by
  -- A name that is not empty has a first character.
  simp only [isPlain, Bool.and_eq_true, decide_eq_true_eq, List.all_eq_true] at plain
  obtain ⟨filled, each⟩ := plain
  obtain ⟨c, rest, same⟩ := List.exists_cons_of_ne_nil (mt String.toList_eq_nil_iff.mp filled)
  exact ⟨c, rest, same, each c (by simp [same])⟩

/-- A plain name is as long as characters of plain names follow each other. -/
theorem takeWhile_isPlain {name : String} {rest : List Char} (plain : isPlain name = true)
    (ends : EndsName rest) : (name.toList ++ rest).takeWhile isPlainChar = name.toList := by
  -- All characters of the name are taken, and the one behind it is not.
  simp only [isPlain, Bool.and_eq_true, List.all_eq_true] at plain
  rw [List.takeWhile_append_of_pos plain.2]
  cases rest with
  | nil => simp
  | cons c rest => simp [endsName_cons.mp ends]

/-- Plain names are told apart. -/
theorem toldApart_of_isPlain {a b : String} (first : isPlain a = true) (second : isPlain b = true) :
    ToldApart String.toList EndsName a b := by
  -- Both names are the longest beginnings with characters of plain names.
  intro r s endR endS same
  have names : a.toList = b.toList := by
    rw [← takeWhile_isPlain first endR, same, takeWhile_isPlain second endS]
  obtain rfl := String.toList_inj.mp names
  exact ⟨rfl, List.append_cancel_left same⟩

end Names

section Applications

variable {α : Type} {text : α → String}

/-- What follows a term or an atom is neither part of its name nor an argument. -/
def EndsTerm (rest : List Char) : Prop := EndsName rest ∧ rest.head? ≠ some '('

/-- Arguments as they stand after a name. -/
def enclosed (args : List String) : List Char :=
  if args.isEmpty then [] else '(' :: ((String.intercalate "," args).toList ++ [')'])

/-- A name without arguments stands alone, and others have them behind it. -/
theorem toList_applied (name : String) (args : List String) :
    (applied name args).toList = name.toList ++ enclosed args := by
  cases args with
  | nil => simp [applied, enclosed]
  | cons arg args => simp [applied, enclosed]

/-- Arguments are no part of the name in front of them. -/
theorem endsName_enclosed {rest : List Char} (ends : EndsTerm rest) (args : List String) :
    EndsName (enclosed args ++ rest) := by
  -- An opening parenthesis is no part of a name.
  cases args with
  | nil => exact ends.1
  | cons arg args => simp [enclosed, isPlainChar]

/-- Arguments are told apart, also from none. -/
theorem toldApart_enclosed {as bs : List α}
    (each : ∀ a ∈ as, ∀ b ∈ bs, ToldApart (fun a => (text a).toList) EndsTerm a b) :
    ToldApart (fun as => enclosed (as.map text)) EndsTerm as bs := by
  -- Only the parenthesis tells arguments from none.
  intro r s endR endS same
  cases as with
  | nil =>
    cases bs with
    | nil => exact ⟨rfl, same⟩
    | cons b bs =>
      have argument : r.head? = some '(' := by
        rw [show r = enclosed _ ++ s from same]
        rfl
      exact absurd argument endR.2
  | cons a as =>
    cases bs with
    | nil =>
      have argument : s.head? = some '(' := by
        rw [← show enclosed _ ++ r = s from same]
        rfl
      exact absurd argument endS.2
    | cons b bs =>
      -- Arguments are followed by a comma or by the closing parenthesis.
      have between : ∀ r, EndsTerm (",".toList ++ r) := fun r => by simp [EndsTerm, isPlainChar]
      have closing : ∀ r, EndsList EndsTerm ",".toList (')' :: r) := fun r => by
        simp [EndsList, EndsTerm, isPlainChar]
      simp only [enclosed, List.isEmpty_map, List.isEmpty_cons, Bool.false_eq_true, if_false,
        List.cons_append, List.append_assoc, List.cons.injEq, true_and] at same
      -- The lists between the parentheses are told apart as joined ones.
      have lists := ToldApart.intercalate between each (by simp) (by simp)
      obtain ⟨items, rest⟩ := lists _ _ (closing r) (closing s) same
      exact ⟨items, List.tail_eq_of_cons_eq rest⟩

/-- A plain name and its arguments are told apart from others. -/
theorem eq_of_applied {f g : String} {as bs : List α} {r s : List Char}
    (first : isPlain f = true) (second : isPlain g = true)
    (each : ∀ a ∈ as, ∀ b ∈ bs, ToldApart (fun a => (text a).toList) EndsTerm a b)
    (endR : EndsTerm r) (endS : EndsTerm s)
    (same : (applied f (as.map text)).toList ++ r = (applied g (bs.map text)).toList ++ s) :
    f = g ∧ as = bs ∧ r = s := by
  -- The names end where the arguments begin, and the arguments where the term ends.
  rw [toList_applied, toList_applied, List.append_assoc, List.append_assoc] at same
  obtain ⟨names, rest⟩ := toldApart_of_isPlain first second _ _
    (endsName_enclosed endR _) (endsName_enclosed endS _) same
  exact ⟨names, toldApart_enclosed each r s endR endS rest⟩

end Applications

section Terms

/-- Kinds of names that stand without arguments. -/
abbrev Usage := Kind → String → Prop

/-- No name is used for two kinds. -/
def Usage.Unshared (used : Usage) : Prop :=
  ∀ kind other name, used kind name → used other name → kind = other

variable {used : Usage}

namespace Term

/-- The kind of the symbol in front. -/
def kind : Term → Kind
  | .var _ => .var
  | .const _ => .const
  | .app .. => .func

/-- The name in front. -/
def head : Term → String
  | .var name | .const name | .app name _ => name

/-- The terms between the outermost parentheses. -/
def args : Term → List Term
  | .var _ | .const _ => []
  | .app _ args => args

/-- A term consists of the symbol in front and the arguments. -/
theorem eq_of_parts {s t : Term} (kinds : s.kind = t.kind) (heads : s.head = t.head)
    (parts : s.args = t.args) : s = t := by
  -- The three parts determine a term of each of the kinds.
  cases s <;> cases t <;> simp_all [kind, head, args]

/-- Only functions have arguments. -/
theorem kind_of_args {t : Term} (filled : t.args ≠ []) : t.kind = .func := by
  -- Variables and constants have none.
  cases t with
  | app f args => rfl
  | _ => exact absurd rfl filled

/-- All terms are shown in one way. -/
theorem text_eq_applied (t : Term) : t.text = applied t.head (t.args.map text) := by
  -- Variables and constants are shown as names without arguments.
  cases t with
  | app f args => simp [text, fold, foldAll_eq_map, head, Term.args]
  | _ => rfl

/-- Terms with plain names, of which those without arguments are used for their kinds. -/
def Legible (used : Usage) : Term → Prop :=
  fold (fun x => isPlain x = true ∧ used .var x) (fun c => isPlain c = true ∧ used .const c)
    fun f parts => isPlain f = true ∧ (parts = [] → used .func f) ∧ ∀ part ∈ parts, part

/--
A term is legible if its name is plain, if it shows its kind, and if its arguments are legible.
-/
theorem legible_iff {t : Term} : t.Legible used ↔
    isPlain t.head = true ∧ (t.args = [] → used t.kind t.head) ∧ ∀ s ∈ t.args, s.Legible used := by
  -- The fold visits every argument.
  cases t with
  | app f args =>
    simp only [Legible, fold, foldAll_eq_map, List.map_eq_nil_iff, List.mem_map,
      forall_exists_index, and_imp, forall_apply_eq_imp_iff₂, head, kind, Term.args]
  | _ => simp [Legible, fold, head, kind, args]

/-- Legible terms are told apart if their arguments are. -/
theorem toldApart_of_args (unshared : used.Unshared) {t u : Term} (first : t.Legible used)
    (second : u.Legible used)
    (each : ∀ s ∈ t.args, ∀ v ∈ u.args, ToldApart (fun t => t.text.toList) EndsTerm s v) :
    ToldApart (fun t => t.text.toList) EndsTerm t u := by
  intro r s endR endS same
  obtain ⟨plain, usage, _⟩ := legible_iff.mp first
  obtain ⟨plain', usage', _⟩ := legible_iff.mp second
  simp only [text_eq_applied t, text_eq_applied u] at same
  obtain ⟨heads, parts, rest⟩ := eq_of_applied plain plain' each endR endS same
  -- The text shows the kind of a term by its arguments, or by its name where it has none.
  have kinds : t.kind = u.kind := by
    by_cases empty : t.args = []
    · exact unshared _ _ _ (usage empty) (heads ▸ usage' (parts ▸ empty))
    · rw [kind_of_args empty, kind_of_args (parts ▸ empty)]
  exact ⟨eq_of_parts kinds heads parts, rest⟩

/-- Legible terms are told apart. -/
theorem Legible.toldApart (unshared : used.Unshared) {t u : Term} (first : t.Legible used)
    (second : u.Legible used) : ToldApart (fun t => t.text.toList) EndsTerm t u := by
  -- Only applications have arguments to be told apart.
  induction t generalizing u with
  | var x => exact toldApart_of_args unshared first second nofun
  | const c => exact toldApart_of_args unshared first second nofun
  | app f args ih =>
    have parts := (legible_iff.mp first).2.2
    have others := (legible_iff.mp second).2.2
    exact toldApart_of_args unshared first second fun s inside v listed =>
      ih s inside (parts s inside) (others v listed)

end Term

/-- Atoms with a plain name and with legible arguments. -/
def Atom.Legible (used : Usage) (a : Atom) : Prop :=
  isPlain a.predicate = true ∧ ∀ t ∈ a.args, t.Legible used

/-- Legible atoms are told apart. -/
theorem Atom.Legible.toldApart (unshared : used.Unshared) {a b : Atom} (first : a.Legible used)
    (second : b.Legible used) : ToldApart (fun a => a.text.toList) EndsTerm a b := by
  -- An atom is shown like the application of a function.
  intro r s endR endS same
  have each := fun t (inside : t ∈ a.args) u (listed : u ∈ b.args) =>
    (first.2 t inside).toldApart unshared (second.2 u listed)
  obtain ⟨names, parts, rest⟩ := eq_of_applied first.1 second.1 each endR endS same
  cases a
  cases b
  exact ⟨by simp_all, rest⟩

end Terms

section Formulas

variable {used : Usage}

/-- What follows a formula is neither part of a term nor a name behind a blank. -/
def EndsFormula (rest : List Char) : Prop :=
  EndsTerm rest ∧ ∀ tail, rest = ' ' :: tail → EndsName tail

/-- Nothing that follows does not go on with a formula. -/
theorem endsFormula_nil : EndsFormula [] := by simp [EndsFormula, EndsTerm]

/-- A closing parenthesis ends a formula. -/
theorem endsFormula_closing (rest : List Char) : EndsFormula (')' :: rest) := by
  simp [EndsFormula, EndsTerm, isPlainChar]

/-- The sign of a connective is no name. -/
theorem endsFormula_sign (op : Connective) (rest : List Char) :
    EndsFormula (' ' :: ((sign op).toList ++ rest)) := by
  cases op <;> simp [EndsFormula, EndsTerm, isPlainChar, sign]

/-- Connectives are told apart by their signs, although one sign ends like another. -/
theorem toldApart_sign (op other : Connective) :
    ToldApart (fun op => (sign op).toList) (fun rest => rest.head? = some ' ') op other := by
  -- Signs that begin alike differ before the blank.
  intro r s endR endS same
  cases op <;> cases other <;> simp_all [sign]

/-- The words for quantifiers are plain names. -/
theorem isPlain_word (q : Quantifier) : isPlain (word q) = true := by
  cases q <;> decide

/-- Quantifiers have different words. -/
theorem word_injective : Function.Injective word := by
  intro q other same
  cases q <;> cases other <;> first | rfl | exact absurd same (by decide)

namespace Formula

/-- Formulas with plain names, in which names without arguments are used for their kinds. -/
def Legible (used : Usage) : Formula → Prop
  | .atom a => a.Legible used
  | .not f => f.Legible used
  | .binary _ l r => l.Legible used ∧ r.Legible used
  | .quantified _ x f => isPlain x = true ∧ f.Legible used

/-- A formula with two sides is shown in parentheses, with the sign between the sides. -/
theorem toList_text_binary (op : Connective) (l r : Formula) : (binary op l r).text.toList =
    '(' :: (l.text.toList ++ ' ' :: ((sign op).toList ++ ' ' :: (r.text.toList ++ [')']))) := by
  simp [text]

/-- A quantifier is shown as its word, with a blank and the variable and a dot behind it. -/
theorem toList_text_quantified (q : Quantifier) (x : String) (f : Formula) :
    (quantified q x f).text.toList =
      (word q).toList ++ ' ' :: (x.toList ++ '.' :: f.text.toList) := by
  simp [text]

/-- The sign that a formula starts with, unless it starts with a name. -/
def opening? : Formula → Option Char
  | .not _ => some '-'
  | .binary .. => some '('
  | .atom _ | .quantified .. => none

/-- The first character of a text is that of a name or the sign. -/
theorem Legible.filter_head? {f : Formula} (legible : f.Legible used) (rest : List Char) :
    (f.text.toList ++ rest).head?.filter (fun c => !isPlainChar c) = f.opening? := by
  -- A sign is no character of a name, and a name begins with one.
  cases f with
  | atom a =>
    obtain ⟨c, more, name, plain⟩ := exists_cons_of_isPlain legible.1
    simp [text, Atom.text, toList_applied, name, plain, opening?]
  | not f => simp [text, opening?, Option.filter, isPlainChar]
  | binary op l r => simp [text, opening?, Option.filter, isPlainChar]
  | quantified q x f =>
    obtain ⟨c, more, name, plain⟩ := exists_cons_of_isPlain (isPlain_word q)
    simp [toList_text_quantified, name, plain, opening?]

/-- Formulas that begin one string start with one sign. -/
theorem Legible.opening_eq {f g : Formula} (first : f.Legible used) (second : g.Legible used)
    {r s : List Char} (same : f.text.toList ++ r = g.text.toList ++ s) :
    f.opening? = g.opening? := by
  -- The first character of the string is that of both.
  rw [← first.filter_head? r, same, second.filter_head? s]

/-- No atom reads like a quantifier and its variable, even if its name is the same word. -/
theorem atom_ne_quantified {a : Atom} {q : Quantifier} {x : String} {f : Formula}
    {r s : List Char} (name : isPlain a.predicate = true) (bound : isPlain x = true)
    (ends : EndsFormula r) :
    (atom a).text.toList ++ r ≠ (quantified q x f).text.toList ++ s := by
  intro same
  rw [text, Atom.text, toList_applied, toList_text_quantified, List.append_assoc,
    List.append_assoc] at same
  obtain ⟨-, rest⟩ := toldApart_of_isPlain name (isPlain_word q) _ _
    (endsName_enclosed ends.1 _) (by simp [isPlainChar]) same
  -- Behind the word comes a blank, and behind the blank a name.
  obtain ⟨c, more, start, plain⟩ := exists_cons_of_isPlain bound
  cases args : a.args with
  | nil =>
    rw [args] at rest
    have blank : EndsName _ := ends.2 _ rest
    simp [start, plain] at blank
  | cons t ts => simp [args, enclosed] at rest

/-- Legible formulas are told apart. -/
theorem Legible.toldApart (unshared : used.Unshared) {f g : Formula} (first : f.Legible used)
    (second : g.Legible used) : ToldApart (fun f => f.text.toList) EndsFormula f g := by
  intro r s endR endS same
  -- The first character leaves one form for both formulas, or a name at the start of either.
  induction f generalizing g r s with
  | atom a =>
    have opening := first.opening_eq second same
    cases g with
    | atom b =>
      obtain ⟨rfl, rest⟩ := Atom.Legible.toldApart unshared first second r s endR.1 endS.1 same
      exact ⟨rfl, rest⟩
    | quantified q x g => exact absurd same (atom_ne_quantified first.1 second.1 endR)
    | _ => cases opening
  | not f ih =>
    have opening := first.opening_eq second same
    cases g with
    | not g =>
      have inner : f.text.toList ++ r = g.text.toList ++ s := by simpa [text] using same
      have legible : g.Legible used := second
      obtain ⟨rfl, rest⟩ := ih first legible r s endR endS inner
      exact ⟨rfl, rest⟩
    | _ => cases opening
  | binary op l r left right =>
    rename_i tail
    have opening := first.opening_eq second same
    cases g with
    | binary other l' r' =>
      simp only [toList_text_binary, List.cons_append, List.append_assoc, List.cons.injEq,
        true_and] at same
      -- The left side ends at the blank before the sign, and the right one at the parenthesis.
      obtain ⟨rfl, joined⟩ := left first.1 second.1 _ _ (endsFormula_sign op _)
        (endsFormula_sign other _) same
      obtain ⟨rfl, behind⟩ := toldApart_sign op other _ _ rfl rfl (List.tail_eq_of_cons_eq joined)
      obtain ⟨rfl, closed⟩ := right first.2 second.2 _ _ (endsFormula_closing _)
        (endsFormula_closing _) (List.tail_eq_of_cons_eq behind)
      exact ⟨rfl, List.tail_eq_of_cons_eq closed⟩
    | _ => cases opening
  | quantified q x f ih =>
    have opening := first.opening_eq second same
    cases g with
    | atom b => exact absurd same.symm (atom_ne_quantified second.1 first.1 endS)
    | quantified other y g =>
      simp only [toList_text_quantified, List.cons_append, List.append_assoc] at same
      -- The word ends at the blank, and the variable at the dot.
      obtain ⟨words, behind⟩ := toldApart_of_isPlain (isPlain_word q) (isPlain_word other) _ _
        (by simp [isPlainChar]) (by simp [isPlainChar]) same
      obtain rfl := word_injective words
      obtain ⟨rfl, scope⟩ := toldApart_of_isPlain first.1 second.1 _ _
        (by simp [isPlainChar]) (by simp [isPlainChar]) (List.tail_eq_of_cons_eq behind)
      obtain ⟨rfl, rest⟩ := ih first.2 second.2 r s endR endS (List.tail_eq_of_cons_eq scope)
      exact ⟨rfl, rest⟩
    | _ => cases opening

end Formula

end Formulas

section Clauses

variable {used : Usage}

/-- The literal as a formula. -/
def Literal.formula (l : Literal) : Formula :=
  if l.positive then .atom l.atom else .not (.atom l.atom)

/-- Literals are shown as formulas are. -/
theorem Literal.text_formula (l : Literal) : l.formula.text = l.text := by
  obtain ⟨positive, atom⟩ := l
  cases positive <;> rfl

/-- Different literals are different formulas. -/
theorem Literal.formula_injective : Function.Injective Literal.formula := by
  intro l m same
  obtain ⟨positive, atom⟩ := l
  -- The sign of the literal is the negation of the formula.
  obtain ⟨positive', atom'⟩ := m
  cases positive <;> cases positive' <;> simp_all [formula]

/-- A literal of a legible atom is a legible formula. -/
theorem Literal.legible_formula {l : Literal} (legible : l.atom.Legible used) :
    l.formula.Legible used := by
  -- Negation does not matter for names.
  obtain ⟨positive, atom⟩ := l
  cases positive <;> exact legible

/-- Literals of legible atoms are told apart. -/
theorem Literal.toldApart (unshared : used.Unshared) {l m : Literal}
    (first : l.atom.Legible used) (second : m.atom.Legible used) :
    ToldApart (fun l => l.text.toList) EndsFormula l m := by
  -- Literals are told apart as the formulas that they are.
  intro r s endR endS same
  simp only [← text_formula] at same
  obtain ⟨formulas, rest⟩ :=
    (legible_formula first).toldApart unshared (legible_formula second) r s endR endS same
  exact ⟨formula_injective formulas, rest⟩

/-- Legible clauses with the same text are the same, unless they are empty. -/
theorem Clause.eq_of_text (unshared : used.Unshared) {c d : Clause}
    (first : ∀ l ∈ c.literals, l.atom.Legible used)
    (second : ∀ l ∈ d.literals, l.atom.Legible used)
    (filled : c.literals ≠ []) (filled' : d.literals ≠ []) (same : c.text = d.text) : c = d := by
  -- Between literals stands the sign of the connective that they are joined by.
  have between : ∀ r, EndsFormula (" | ".toList ++ r) := fun r => by
    simpa [sign] using endsFormula_sign .or (' ' :: r)
  have each := fun l (inside : l ∈ c.literals) m (listed : m ∈ d.literals) =>
    Literal.toldApart unshared (first l inside) (second m listed)
  have lists := ToldApart.intercalate between each filled filled'
  have done : EndsList EndsFormula " | ".toList [] := ⟨endsFormula_nil, by simp⟩
  rw [text, text, if_neg (by simpa using filled), if_neg (by simpa using filled')] at same
  -- Nothing follows the texts of the clauses.
  obtain ⟨literals, -⟩ := lists [] [] done done (by simp only [same])
  cases c
  cases d
  exact congrArg Clause.mk literals

end Clauses

end ClauseForm.Named
