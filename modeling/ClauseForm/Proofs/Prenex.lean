import ClauseForm.Proofs.NormalForm
import ClauseForm.Proofs.Semantics

/-! Quantifiers may be moved to the front of formulas that keep their variables apart. -/

namespace ClauseForm

/-- Nothing is lost when a proposition moves into a quantifier that does not speak about it. -/
theorem Quantifier.ranges_joins {Domain : Type} [Nonempty Domain] (q : Quantifier)
    {op : Connective} (junction : op = .and ∨ op = .or) (p : Domain → Prop) (r : Prop) :
    (q.Ranges fun d => op.Joins (p d) r) ↔ op.Joins (q.Ranges p) r := by
  -- The domain has an element, without which the other side alone would not be reached.
  rcases junction with rfl | rfl <;> cases q
  · exact forall_and_right p r
  · exact exists_and_right
  · exact forall_or_right
  · constructor
    · rintro ⟨d, left | right⟩
      · exact Or.inl ⟨d, left⟩
      · exact Or.inr right
    · rintro (⟨d, left⟩ | right)
      · exact ⟨d, Or.inl left⟩
      · exact ⟨Classical.choice inferInstance, Or.inr right⟩

/-- The order of the sides of a conjunction or disjunction does not matter. -/
theorem Connective.joins_comm {op : Connective} (junction : op = .and ∨ op = .or) (p r : Prop) :
    op.Joins p r ↔ op.Joins r p := by
  -- Both connectives are symmetric.
  rcases junction with rfl | rfl
  · exact and_comm
  · exact or_comm

/-- Arranging quantifiers only changes their order. -/
theorem PrenexOrder.arrange_perm (order : PrenexOrder) (bs : List (Quantifier × Variable)) :
    (order.arrange bs).Perm bs := by
  -- Only the default order moves any quantifier.
  cases order with
  | preserve => exact .refl bs
  | existentialsFirst =>
    -- The quantifiers that are not existential are the universal ones.
    have others : (fun b : Quantifier × Variable => b.1 == .universal) =
        fun b => !(b.1 == .existential) := by
      funext b
      cases b.1 <;> rfl
    rw [arrange, others]
    exact List.filter_append_perm _ bs

/-- Arranging quantifiers neither adds nor removes any. -/
theorem PrenexOrder.mem_arrange (order : PrenexOrder) {bs : List (Quantifier × Variable)}
    {b : Quantifier × Variable} : b ∈ order.arrange bs ↔ b ∈ bs :=
  (order.arrange_perm bs).mem_iff

namespace Formula

section Prefix

variable {q : Quantifier} {x : Variable} {bs cs : List (Quantifier × Variable)} {f g : Formula}

/-- With no quantifiers in front a formula is itself. -/
@[simp] theorem quantify_nil : quantify [] f = f := rfl

/-- The first quantifier stands outside of those that follow. -/
@[simp] theorem quantify_cons :
    quantify ((q, x) :: bs) f = .quantified q x (quantify bs f) := rfl

/-- Two groups of quantifiers stand in front of each other. -/
theorem quantify_append : quantify (bs ++ cs) f = quantify bs (quantify cs f) :=
  List.foldr_append ..

/-- Quantifiers in front are the first ones of a formula. -/
theorem binders_quantify : (quantify bs f).binders = bs ++ f.binders := by
  -- They come one after the other before those of the formula.
  induction bs with
  | nil => rfl
  | cons b bs ih =>
    obtain ⟨q, x⟩ := b
    rw [quantify_cons, binders, ih, List.cons_append]

/-- Quantifiers in front bind their variables in all of the formula. -/
theorem mem_free_quantify {z : Variable} :
    z ∈ (quantify bs f).freeVariables ↔ z ∈ f.freeVariables ∧ z ∉ bs.map (·.2) := by
  -- A variable that one of them binds is not free in the whole.
  induction bs with
  | nil => simp
  | cons b bs ih =>
    obtain ⟨q, x⟩ := b
    rw [quantify_cons, mem_free_quantified, ih]
    simp only [List.map_cons, List.mem_cons, not_or]
    exact and_assoc.trans (and_congr_right fun _ => and_comm)

/-- Quantifiers in front make no variable free. -/
theorem unfree_quantify {z : Variable} (unfree : z ∉ f.freeVariables) :
    z ∉ (quantify bs f).freeVariables :=
  fun free => unfree (mem_free_quantify.mp free).1

/-- Quantifiers in front of a formula without them leave it as the matrix. -/
theorem matrix_quantify (free : f.isQuantifierFree = true) : (quantify bs f).matrix = f := by
  -- The quantifiers in front are all taken off again.
  induction bs with
  | nil => exact matrix_of_isQuantifierFree free
  | cons b bs ih => exact ih

/-- Quantifiers in front do not matter for negation normal form. -/
theorem isNegationNormal_quantify : (quantify bs f).isNegationNormal = f.isNegationNormal := by
  -- The form looks through quantifiers.
  induction bs with
  | nil => rfl
  | cons b bs ih => exact ih

/-- Quantifiers in front respect implication. -/
theorem holds_quantify_mono {m : Structure} {values : Variable → m.Domain}
    (implies : ∀ values, f.Holds m values → g.Holds m values)
    (holds : (quantify bs f).Holds m values) : (quantify bs g).Holds m values := by
  -- Each quantifier in turn passes the implication on.
  induction bs generalizing values with
  | nil => exact implies values holds
  | cons b bs ih => exact b.1.ranges_mono (fun d => ih) holds

/-- Quantifiers in front respect equivalence. -/
theorem holds_quantify_congr {m : Structure} {values : Variable → m.Domain}
    (same : ∀ values, f.Holds m values ↔ g.Holds m values) :
    (quantify bs f).Holds m values ↔ (quantify bs g).Holds m values :=
  ⟨holds_quantify_mono fun values => (same values).mp,
    holds_quantify_mono fun values => (same values).mpr⟩

end Prefix

section Merging

variable {m : Structure} {values : Variable → m.Domain} {op : Connective} {l r : Formula}
  {bs cs : List (Quantifier × Variable)}

/-- Quantifiers over variables that are not free on the right belong to the left side alone. -/
theorem holds_quantify_left (junction : op = .and ∨ op = .or)
    (apart : ∀ b ∈ bs, b.2 ∉ r.freeVariables) :
    (quantify bs (.binary op l r)).Holds m values ↔
      op.Joins ((quantify bs l).Holds m values) (r.Holds m values) := by
  -- The quantifiers are moved into the left side from the inside out.
  induction bs generalizing values with
  | nil => exact Iff.rfl
  | cons b bs ih =>
    have unfree : b.2 ∉ r.freeVariables := apart b (by simp)
    have : Nonempty m.Domain := m.inhabited
    calc (quantify (b :: bs) (.binary op l r)).Holds m values
        ↔ b.1.Ranges fun d => op.Joins ((quantify bs l).Holds m (assign values b.2 d))
            (r.Holds m values) := by
          refine b.1.ranges_congr fun d => ?_
          show (quantify bs (.binary op l r)).Holds m (assign values b.2 d) ↔ _
          rw [ih fun c member => apart c (by simp [member]), holds_assign unfree]
      _ ↔ op.Joins ((quantify (b :: bs) l).Holds m values) (r.Holds m values) :=
          b.1.ranges_joins junction _ _

/-- Quantifiers over variables that are not free on the left belong to the right side alone. -/
theorem holds_quantify_right (junction : op = .and ∨ op = .or)
    (apart : ∀ b ∈ bs, b.2 ∉ l.freeVariables) :
    (quantify bs (.binary op l r)).Holds m values ↔
      op.Joins (l.Holds m values) ((quantify bs r).Holds m values) := by
  -- The sides may be exchanged.
  calc (quantify bs (.binary op l r)).Holds m values
      ↔ (quantify bs (.binary op r l)).Holds m values :=
        holds_quantify_congr fun _ => Connective.joins_comm junction _ _
    _ ↔ op.Joins ((quantify bs r).Holds m values) (l.Holds m values) :=
        holds_quantify_left junction apart
    _ ↔ op.Joins (l.Holds m values) ((quantify bs r).Holds m values) :=
        Connective.joins_comm junction _ _

/-- Quantifiers of both sides may stand in front of a conjunction or disjunction. -/
theorem holds_quantify_both (junction : op = .and ∨ op = .or)
    (left : ∀ b ∈ bs, b.2 ∉ (quantify cs r).freeVariables)
    (right : ∀ c ∈ cs, c.2 ∉ l.freeVariables) :
    (quantify (bs ++ cs) (.binary op l r)).Holds m values ↔
      op.Joins ((quantify bs l).Holds m values) ((quantify cs r).Holds m values) := by
  -- The inner quantifiers join the right side first, and then the outer ones the left side.
  rw [quantify_append, ← holds_quantify_left junction left]
  exact holds_quantify_congr fun values => holds_quantify_right junction right

/-- Two groups of quantifiers in front may both be taken apart into those of either side. -/
theorem holds_quantify_groups {es us fs vs : List (Quantifier × Variable)}
    (junction : op = .and ∨ op = .or) (left : ∀ b ∈ es ++ us, b.2 ∉ r.freeVariables)
    (right : ∀ c ∈ fs ++ vs, c.2 ∉ l.freeVariables) :
    (quantify ((es ++ fs) ++ (us ++ vs)) (.binary op l r)).Holds m values ↔
      op.Joins ((quantify (es ++ us) l).Holds m values)
        ((quantify (fs ++ vs) r).Holds m values) := by
  -- The inner group is taken apart first, below the outer one.
  have leftOuter : ∀ b ∈ es, b.2 ∉ r.freeVariables := fun b member => left b (by simp [member])
  have leftInner : ∀ b ∈ us, b.2 ∉ r.freeVariables := fun b member => left b (by simp [member])
  have rightOuter : ∀ c ∈ fs, c.2 ∉ l.freeVariables := fun c member => right c (by simp [member])
  have rightInner : ∀ c ∈ vs, c.2 ∉ l.freeVariables := fun c member => right c (by simp [member])
  calc (quantify ((es ++ fs) ++ (us ++ vs)) (.binary op l r)).Holds m values
      ↔ (quantify (es ++ fs) (quantify (us ++ vs) (.binary op l r))).Holds m values := by
        rw [quantify_append]
    _ ↔ (quantify (es ++ fs) (.binary op (quantify us l) (quantify vs r))).Holds m values :=
        holds_quantify_congr fun values => holds_quantify_both junction
          (fun b member => unfree_quantify (leftInner b member)) rightInner
    _ ↔ op.Joins ((quantify es (quantify us l)).Holds m values)
          ((quantify fs (quantify vs r)).Holds m values) :=
        holds_quantify_both junction
          (fun b member => unfree_quantify (unfree_quantify (leftOuter b member)))
          (fun c member => unfree_quantify (rightOuter c member))
    _ ↔ op.Joins ((quantify (es ++ us) l).Holds m values)
          ((quantify (fs ++ vs) r).Holds m values) := by
        rw [quantify_append, quantify_append]

end Merging

section Dropping

variable {dropped : Quantifier → Bool} {f : Formula}

/-- A formula without any of its quantifiers has none. -/
theorem isQuantifierFree_dropBinders (f : Formula) :
    (f.dropBinders fun _ => true).isQuantifierFree = true := by
  -- No quantifier is kept.
  induction f with
  | atom a => rfl
  | not f ih => exact ih
  | binary op l r left right =>
    rw [isQuantifierFree, Bool.not_eq_true'] at left right ⊢
    simp only [dropBinders, hasQuantifier, left, right, Bool.or_self]
  | quantified q x f ih => exact ih

/-- A variable that is free once quantifiers are left out was free or bound before. -/
theorem mem_free_dropBinders {z : Variable} (free : z ∈ (f.dropBinders dropped).freeVariables) :
    z ∈ f.freeVariables ∨ z ∈ f.boundVariables := by
  -- A quantifier that is left out may set its variable free.
  induction f with
  | atom a => exact Or.inl free
  | not f ih => exact ih free
  | binary op l r left right =>
    rw [dropBinders, mem_free_binary] at free
    rw [mem_free_binary, bound_binary, List.mem_append]
    rcases free with free | free
    · exact (left free).imp Or.inl Or.inl
    · exact (right free).imp Or.inr Or.inr
  | quantified q x f ih =>
    rw [mem_free_quantified, bound_quantified, List.mem_cons]
    -- With or without its quantifier, the variable is free in what is left of the scope.
    have inside : z ∈ (f.dropBinders dropped).freeVariables := by
      rw [dropBinders] at free
      split at free
      · exact free
      · exact (mem_free_quantified.mp free).1
    by_cases same : z = x
    · exact Or.inr (Or.inl same)
    · exact (ih inside).imp (fun free => ⟨free, same⟩) Or.inr

/-- A free variable stays free when quantifiers are left out. -/
theorem mem_free_dropBinders_of_free {z : Variable} (free : z ∈ f.freeVariables) :
    z ∈ (f.dropBinders dropped).freeVariables := by
  -- A free occurrence lies in the scope of no quantifier over its variable.
  induction f with
  | atom a => exact free
  | not f ih => exact ih free
  | binary op l r left right =>
    rw [mem_free_binary] at free
    rw [dropBinders, mem_free_binary]
    exact free.imp left right
  | quantified q x f ih =>
    obtain ⟨inside, different⟩ := mem_free_quantified.mp free
    rw [dropBinders]
    split
    · exact ih inside
    · exact mem_free_quantified.mpr ⟨ih inside, different⟩

/-- Leaving out quantifiers keeps negation normal form. -/
theorem isNegationNormal_dropBinders (normal : f.isNegationNormal = true) :
    (f.dropBinders dropped).isNegationNormal = true := by
  -- The connectives stay, and so does what stands below negations.
  induction f with
  | atom a => rfl
  -- Only atoms are negated.
  | not f _ => cases f <;> first | rfl | cases normal
  | binary op l r left right =>
    cases op <;> simp only [isNegationNormal, Bool.and_eq_true, Bool.false_eq_true] at normal
    · simp only [dropBinders, isNegationNormal, left normal.1, right normal.2, Bool.and_self]
    · simp only [dropBinders, isNegationNormal, left normal.1, right normal.2, Bool.and_self]
  | quantified q x f ih =>
    rw [dropBinders]
    split
    · exact ih normal
    · exact ih normal

end Dropping

section Establishing

variable {order : PrenexOrder} {f : Formula}

/-- Moving quantifiers to the front binds the same variables, if in another order. -/
theorem binders_toPrenex_perm (order : PrenexOrder) (f : Formula) :
    (f.toPrenex order).binders.Perm f.binders := by
  -- What is left without its quantifiers binds nothing.
  rw [toPrenex, binders_quantify, binders_of_isQuantifierFree (isQuantifierFree_dropBinders f),
    List.append_nil]
  exact order.arrange_perm f.binders

/-- Where variables are kept apart, moving quantifiers to the front changes no free variable. -/
theorem mem_free_toPrenex (apart : f.Apart) {z : Variable} :
    z ∈ (f.toPrenex order).freeVariables ↔ z ∈ f.freeVariables := by
  -- What stands in front binds just the bound variables, none of which is free.
  have bound : z ∈ (order.arrange f.binders).map (·.2) ↔ z ∈ f.boundVariables :=
    ((order.arrange_perm f.binders).map _).mem_iff
  rw [toPrenex, mem_free_quantify, bound]
  constructor
  · rintro ⟨free, unbound⟩
    exact (mem_free_dropBinders free).resolve_right unbound
  · intro free
    exact ⟨mem_free_dropBinders_of_free free, fun bound => apart.unfree z bound free⟩

/-- Moving quantifiers to the front keeps variables apart. -/
theorem Apart.toPrenex (apart : f.Apart) (order : PrenexOrder) : (f.toPrenex order).Apart := by
  -- The same variables are bound, and the same ones are free.
  have bound : (f.toPrenex order).boundVariables.Perm f.boundVariables :=
    (binders_toPrenex_perm order f).map _
  refine ⟨bound.nodup_iff.mpr apart.distinct, fun z inside free => ?_⟩
  exact apart.unfree z (bound.mem_iff.mp inside) ((mem_free_toPrenex apart).mp free)

/-- Moving quantifiers to the front keeps negation normal form. -/
theorem isNegationNormal_toPrenex (normal : f.isNegationNormal = true) :
    (f.toPrenex order).isNegationNormal = true := by
  -- Quantifiers do not matter for the form, neither in front nor elsewhere.
  rw [toPrenex, isNegationNormal_quantify]
  exact isNegationNormal_dropBinders normal

/-- Moving quantifiers to the front leaves none elsewhere. -/
theorem isPrenex_toPrenex (order : PrenexOrder) (f : Formula) :
    (f.toPrenex order).isPrenex = true := by
  -- What stands behind the quantifiers in front has none.
  rw [toPrenex, isPrenex, matrix_quantify (isQuantifierFree_dropBinders f)]
  exact isQuantifierFree_dropBinders f

/-- In the order that asks for it, existential quantifiers are moved in front of universal ones. -/
theorem isExistentialsFirst_toPrenex (f : Formula) :
    (f.toPrenex .existentialsFirst).isExistentialsFirst = true := by
  rw [isExistentialsFirst, isPrenex_toPrenex, Bool.true_and, toPrenex, binders_quantify,
    binders_of_isQuantifierFree (isQuantifierFree_dropBinders f), List.append_nil,
    PrenexOrder.arrange, List.map_append]
  -- All of the first group are dropped, and so the second group is what is left.
  have existential : ∀ q ∈ (f.binders.filter (·.1 == .existential)).map (·.1),
      (q == .existential) = true := by
    intro q member
    obtain ⟨b, inside, rfl⟩ := List.mem_map.mp member
    exact (List.mem_filter.mp inside).2
  rw [List.dropWhile_append_of_pos existential, List.all_eq_true]
  intro q member
  obtain ⟨b, inside, rfl⟩ := List.mem_map.mp ((List.dropWhile_sublist _).mem member)
  exact (List.mem_filter.mp inside).2

/-- Moving quantifiers to the front keeps a formula known. -/
theorem Known.toPrenex {table : SymbolTable} (known : f.Known table) (order : PrenexOrder) :
    (f.toPrenex order).Known table :=
  known.dropBinders.quantify fun b member => known.binders b (order.mem_arrange.mp member)

end Establishing

section Meaning

variable {op : Connective} {f l r : Formula} {dropped : Quantifier → Bool}
  {bs : List (Quantifier × Variable)} {z : Variable}

/-- In negation normal form only conjunctions and disjunctions join formulas. -/
theorem junction_of_isNegationNormal (normal : (binary op l r).isNegationNormal = true) :
    (op = .and ∨ op = .or) ∧ l.isNegationNormal = true ∧ r.isNegationNormal = true := by
  -- A formula in negation normal form has no other connectives.
  cases op with
  | and => exact ⟨Or.inl rfl, (Bool.and_eq_true _ _).mp normal⟩
  | or => exact ⟨Or.inr rfl, (Bool.and_eq_true _ _).mp normal⟩
  | implies => cases normal
  | iff => cases normal

/-- No variable bound on the left becomes free on the right when quantifiers leave that side. -/
theorem Apart.unfree_right (apart : (binary op l r).Apart) (bound : z ∈ l.boundVariables) :
    z ∉ (r.dropBinders dropped).freeVariables := by
  -- What is free then was free or bound on the right before.
  intro free
  obtain ⟨unfree, unbound⟩ := apart.sides.1 z bound
  exact (mem_free_dropBinders free).elim unfree unbound

/-- No variable bound on the right becomes free on the left when quantifiers leave that side. -/
theorem Apart.unfree_left (apart : (binary op l r).Apart) (bound : z ∈ r.boundVariables) :
    z ∉ (l.dropBinders dropped).freeVariables := by
  -- What is free then was free or bound on the left before.
  intro free
  obtain ⟨unfree, unbound⟩ := apart.sides.2 z bound
  exact (mem_free_dropBinders free).elim unfree unbound

/-- All quantifiers in their order may stand in front of the rest of the formula. -/
theorem toPrenex_preserve_equivalent (normal : f.isNegationNormal = true) (apart : f.Apart) :
    (f.toPrenex .preserve).Equivalent f := by
  intro m values
  show (quantify f.binders (f.dropBinders fun _ => true)).Holds m values ↔ f.Holds m values
  induction f generalizing values with
  | atom a => exact Iff.rfl
  -- Only atoms are negated, and they have no quantifier.
  | not f _ =>
    cases f with
    | atom a => exact Iff.rfl
    | _ => cases normal
  | binary op l r left right =>
    obtain ⟨junction, normalLeft, normalRight⟩ := junction_of_isNegationNormal normal
    -- The quantifiers of the left side are moved past the right side, and the other way round.
    rw [binders, dropBinders]
    calc (quantify (l.binders ++ r.binders) (.binary op _ _)).Holds m values
        ↔ op.Joins ((quantify l.binders (l.dropBinders fun _ => true)).Holds m values)
            ((quantify r.binders (r.dropBinders fun _ => true)).Holds m values) :=
          holds_quantify_both junction
            (fun b member => unfree_quantify (apart.unfree_right (List.mem_map_of_mem member)))
            (fun c member => apart.unfree_left (List.mem_map_of_mem member))
      _ ↔ op.Joins (l.Holds m values) (r.Holds m values) :=
          op.joins_congr (left normalLeft apart.left values) (right normalRight apart.right values)
  | quantified q x f ih => exact q.ranges_congr fun d => ih normal apart.scope.1 _

/-- An existential quantifier says more in front of a universal one than behind it. -/
theorem holds_quantify_universal {m : Structure} {values : Variable → m.Domain} {x : Variable}
    (existential : ∀ b ∈ bs, b.1 = .existential) (apart : x ∉ bs.map (·.2))
    (holds : (quantify bs (.quantified .universal x f)).Holds m values) (d : m.Domain) :
    (quantify bs f).Holds m (assign values x d) := by
  -- The same witnesses serve for every element.
  induction bs generalizing values with
  | nil => exact holds d
  | cons b bs ih =>
    obtain ⟨q, y⟩ := b
    obtain rfl : q = .existential := existential (q, y) (by simp)
    simp only [List.map_cons, List.mem_cons, not_or] at apart
    obtain ⟨witness, holds⟩ := holds
    refine ⟨witness, ?_⟩
    show (quantify bs f).Holds m (assign (assign values x d) y witness)
    rw [assign_comm apart.1]
    exact ih (fun c member => existential c (by simp [member])) apart.2 holds

/-- Moving existential quantifiers in front of universal ones can only strengthen a formula. -/
theorem holds_of_existentialsFirst {m : Structure} {values : Variable → m.Domain}
    (distinct : (bs.map (·.2)).Nodup)
    (holds : (quantify (PrenexOrder.existentialsFirst.arrange bs) f).Holds m values) :
    (quantify bs f).Holds m values := by
  -- A universal quantifier returns to its place behind those that stood before it.
  induction bs generalizing values with
  | nil => exact holds
  | cons b bs ih =>
    obtain ⟨q, x⟩ := b
    simp only [List.map_cons, List.nodup_cons] at distinct
    cases q with
    | existential =>
      -- The witness stays in its place.
      obtain ⟨d, holds⟩ := holds
      exact ⟨d, ih distinct.2 holds⟩
    | universal =>
      intro d
      have moved : PrenexOrder.existentialsFirst.arrange ((.universal, x) :: bs) =
          bs.filter (·.1 == .existential) ++
            (.universal, x) :: bs.filter (·.1 == .universal) := by
        simp [PrenexOrder.arrange]
      rw [moved, quantify_append, quantify_cons] at holds
      refine ih distinct.2 ?_
      rw [PrenexOrder.arrange, quantify_append]
      -- The existential quantifiers of the rest do not bind the variable again.
      refine holds_quantify_universal (fun b member => ?_) (fun inside => ?_) holds d
      · simpa using (List.mem_filter.mp member).2
      · exact distinct.1 ((List.filter_sublist.map _).mem inside)

/-- A formula is true where its prenex form is true, whatever the order of the quantifiers. -/
theorem holds_of_toPrenex {order : PrenexOrder} (normal : f.isNegationNormal = true)
    (apart : f.Apart) {m : Structure} {values : Variable → m.Domain}
    (holds : (f.toPrenex order).Holds m values) : f.Holds m values := by
  -- Moving existential quantifiers outwards only makes a formula say more.
  refine (toPrenex_preserve_equivalent normal apart m values).mp ?_
  cases order with
  | existentialsFirst => exact holds_of_existentialsFirst apart.distinct holds
  | preserve => exact holds

/-- No existential quantifier lies in the scope of a universal one. -/
def existentialsOutside : Formula → Bool
  | .atom _ => true
  | .not f => f.existentialsOutside
  | .binary _ l r => l.existentialsOutside && r.existentialsOutside
  -- Within the scope of a universal quantifier there are only further universal ones.
  | .quantified .universal _ f => f.isSkolemized
  | .quantified .existential _ f => f.existentialsOutside

/-- Formulas of one shape nest their quantifiers in the same way. -/
theorem SameShape.existentialsOutside {g : Formula} (same : SameShape f g) :
    f.existentialsOutside = g.existentialsOutside := by
  -- Below a universal quantifier it matters only whether others are existential.
  induction same with
  | atom a b => rfl
  | not _ ih => exact ih
  | binary op _ _ left right => simp only [Formula.existentialsOutside, left, right]
  | quantified q x y inner ih =>
    cases q with
    | universal => exact inner.isSkolemized
    | existential => exact ih

/-- Where no existential quantifier depends on a universal one, they may all come first. -/
theorem toPrenex_existentialsFirst_equivalent (normal : f.isNegationNormal = true)
    (apart : f.Apart) (outside : f.existentialsOutside = true) :
    (f.toPrenex .existentialsFirst).Equivalent f := by
  intro m values
  show (quantify (PrenexOrder.existentialsFirst.arrange f.binders)
    (f.dropBinders fun _ => true)).Holds m values ↔ f.Holds m values
  induction f generalizing values with
  | atom a => exact Iff.rfl
  -- A negation stands only before an atom, which has no quantifier.
  | not f _ =>
    cases f with
    | atom a => exact Iff.rfl
    | _ => cases normal
  | binary op l r left right =>
    obtain ⟨junction, normalLeft, normalRight⟩ := junction_of_isNegationNormal normal
    obtain ⟨outsideLeft, outsideRight⟩ := (Bool.and_eq_true _ _).mp outside
    -- Each group of quantifiers consists of those of either side.
    rw [binders, dropBinders]
    have groups : PrenexOrder.existentialsFirst.arrange (l.binders ++ r.binders) =
        (l.binders.filter (·.1 == .existential) ++ r.binders.filter (·.1 == .existential)) ++
          (l.binders.filter (·.1 == .universal) ++ r.binders.filter (·.1 == .universal)) := by
      rw [PrenexOrder.arrange, List.filter_append, List.filter_append]
    rw [groups]
    calc (quantify _ (.binary op _ _)).Holds m values
        ↔ op.Joins ((quantify (PrenexOrder.existentialsFirst.arrange l.binders)
              (l.dropBinders fun _ => true)).Holds m values)
            ((quantify (PrenexOrder.existentialsFirst.arrange r.binders)
              (r.dropBinders fun _ => true)).Holds m values) :=
          holds_quantify_groups junction
            (fun b member => apart.unfree_right
              (List.mem_map_of_mem (PrenexOrder.existentialsFirst.mem_arrange.mp member)))
            (fun c member => apart.unfree_left
              (List.mem_map_of_mem (PrenexOrder.existentialsFirst.mem_arrange.mp member)))
      _ ↔ op.Joins (l.Holds m values) (r.Holds m values) :=
          op.joins_congr (left normalLeft apart.left outsideLeft values)
            (right normalRight apart.right outsideRight values)
  | quantified q x f ih =>
    cases q with
    | existential =>
      exact Quantifier.existential.ranges_congr fun d => ih normal apart.scope.1 outside _
    | universal =>
      -- There is no existential quantifier that would have to move.
      have same : PrenexOrder.existentialsFirst.arrange ((.universal, x) :: f.binders) =
          (.universal, x) :: f.binders := by
        have universal : ∀ b ∈ f.binders, (b.1 == .universal) = true := List.all_eq_true.mp outside
        have none : f.binders.filter (·.1 == .existential) = [] := by
          rw [List.filter_eq_nil_iff]
          intro b member existential
          cases (eq_of_beq existential).symm.trans (eq_of_beq (universal b member))
        simp [PrenexOrder.arrange, none, List.filter_eq_self.mpr universal]
      rw [binders, same]
      exact toPrenex_preserve_equivalent normal apart m values

end Meaning

section Stripping

variable {f : Formula}

/-- Where all quantifiers are universal, none is left without them. -/
theorem isQuantifierFree_stripUniversals (skolemized : f.isSkolemized = true) :
    f.stripUniversals.isQuantifierFree = true := by
  -- Every quantifier met is universal and left out.
  unfold isSkolemized at skolemized
  unfold stripUniversals
  induction f with
  | atom a => rfl
  | not f ih => exact ih skolemized
  | binary op l r left right =>
    rw [binders, List.all_append, Bool.and_eq_true] at skolemized
    have left := left skolemized.1
    have right := right skolemized.2
    simp only [isQuantifierFree, Bool.not_eq_true'] at left right ⊢
    simp only [dropBinders, hasQuantifier, left, right, Bool.or_self]
  | quantified q x f ih =>
    rw [binders, List.all_cons, Bool.and_eq_true] at skolemized
    rw [dropBinders, if_pos skolemized.1]
    exact ih skolemized.2

/-- A formula without quantifiers has none to leave out. -/
theorem dropBinders_of_isQuantifierFree (dropped : Quantifier → Bool)
    (free : f.isQuantifierFree = true) : f.dropBinders dropped = f := by
  -- There is nothing to be dropped.
  rw [isQuantifierFree, Bool.not_eq_true'] at free
  induction f with
  | atom a => rfl
  | not f ih => rw [dropBinders, ih free]
  | binary op l r left right =>
    rw [hasQuantifier, Bool.or_eq_false_iff] at free
    rw [dropBinders, left free.1, right free.2]
  | quantified q x f _ => cases free

/-- Truth under all assignments takes the place of universal quantifiers in front. -/
theorem trueIn_stripUniversals {m : Structure} (prenex : f.isPrenex = true)
    (skolemized : f.isSkolemized = true) : f.stripUniversals.TrueIn m ↔ f.TrueIn m := by
  -- Quantifiers are taken off from the outside.
  induction f with
  | quantified q x f ih =>
    unfold isSkolemized at skolemized
    rw [binders, List.all_cons, Bool.and_eq_true] at skolemized
    obtain rfl : q = .universal := eq_of_beq skolemized.1
    exact (ih prenex skolemized.2).trans trueIn_universal.symm
  | atom a => rfl
  -- Elsewhere a prenex formula has no quantifier.
  | not f _ =>
    have free : (not f).isQuantifierFree = true := prenex
    rw [stripUniversals, dropBinders_of_isQuantifierFree _ free]
  | binary op l r _ _ =>
    have free : (binary op l r).isQuantifierFree = true := prenex
    rw [stripUniversals, dropBinders_of_isQuantifierFree _ free]

end Stripping

end Formula

end ClauseForm
