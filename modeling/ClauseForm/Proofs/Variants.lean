import ClauseForm.Proofs.SymbolMaps
import Mathlib.Data.Set.Finite.Basic
import Mathlib.Logic.Equiv.Fintype

/-! Clauses that differ in the names of variables and of Skolem symbols only. -/

namespace ClauseForm

namespace SymbolTable

/-- Moves the symbols that a table has not given out to other places after those that it has. -/
def relocate (table : SymbolTable) (places : Nat → Nat) {kind : Kind} (s : Symbol kind) :
    Symbol kind :=
  if table.Knows s then s else ⟨table.count kind + places (s.id - table.count kind)⟩

variable {table : SymbolTable} {places : Nat → Nat} {kind : Kind} {s : Symbol kind}

/-- What a table has given out is not moved. -/
theorem relocate_known (known : table.Knows s) : table.relocate places s = s := if_pos known

/-- What a table gives out later is moved among the places that come after it. -/
theorem relocate_next (n : Nat) :
    table.relocate places (⟨table.count kind + n⟩ : Symbol kind) =
      ⟨table.count kind + places n⟩ := by
  -- A symbol with so large a number is not known.
  rw [relocate, if_neg (mt knows_iff.mp (Nat.not_lt.mpr (Nat.le_add_right _ _))),
    Nat.add_sub_cancel_left]

/-- A symbol that a table has not given out is the one at some place after those that it has. -/
theorem exists_place (unknown : ¬ table.Knows s) : ∃ n, s = ⟨table.count kind + n⟩ := by
  have least := Nat.not_lt.mp (mt knows_iff.mpr unknown)
  exact ⟨s.id - table.count kind, congrArg Symbol.mk (by omega : s.id = _)⟩

/-- Where no place is changed, nothing is moved. -/
theorem relocate_id (s : Symbol kind) : table.relocate id s = s := by
  -- What is not known stands at some place.
  by_cases known : table.Knows s
  · exact relocate_known known
  · obtain ⟨n, rfl⟩ := exists_place known
    exact relocate_next n

/-- Symbols moved twice are moved to where the second map takes the first place. -/
theorem relocate_relocate (others : Nat → Nat) (s : Symbol kind) :
    table.relocate others (table.relocate places s) = table.relocate (others ∘ places) s := by
  -- Known symbols stay, whatever the places are.
  by_cases known : table.Knows s
  · rw [relocate_known known, relocate_known known, relocate_known known]
  · obtain ⟨n, rfl⟩ := exists_place known
    rw [relocate_next, relocate_next, relocate_next]
    rfl

/-- Symbols are moved to different places if places are kept apart. -/
theorem relocate_injective (apart : places.Injective) :
    Function.Injective (table.relocate places : Symbol kind → Symbol kind) := by
  -- Known symbols stay known, and unknown ones stay unknown.
  have unmixed {s : Symbol kind} (known : table.Knows s) (n : Nat) :
      s ≠ ⟨table.count kind + places n⟩ := by
    rintro rfl
    exact absurd (knows_iff.mp known) (Nat.not_lt.mpr (Nat.le_add_right _ _))
  intro s t same
  -- Symbols of the same sort differ in their numbers or in their places.
  by_cases first : table.Knows s <;> by_cases second : table.Knows t
  · rwa [relocate_known first, relocate_known second] at same
  · obtain ⟨n, rfl⟩ := exists_place second
    rw [relocate_known first, relocate_next] at same
    exact absurd same (unmixed first n)
  · obtain ⟨n, rfl⟩ := exists_place first
    rw [relocate_known second, relocate_next] at same
    exact absurd same.symm (unmixed second n)
  · obtain ⟨m, rfl⟩ := exists_place first
    obtain ⟨n, rfl⟩ := exists_place second
    rw [relocate_next, relocate_next, Symbol.mk.injEq] at same
    rw [apart (Nat.add_left_cancel same)]

end SymbolTable

namespace SymbolMap

/--
Renames variables, and moves the Skolem symbols given out after a table to other places. Constants
and functions known to the table and all predicates stay as they are.
-/
def relabel (table : SymbolTable) (names : Variable → Variable) (places : Nat → Nat) : SymbolMap
  | .var => names
  | .const | .func => table.relocate places
  | .pred => id

variable {table : SymbolTable} {names others : Variable → Variable} {places further : Nat → Nat}

/-- Nothing is relabelled if no variable and no place changes. -/
theorem relabel_id : relabel table id id = identity := by
  -- Only constants and functions have places.
  funext kind s
  cases kind with
  | var => rfl
  | const => exact SymbolTable.relocate_id s
  | func => exact SymbolTable.relocate_id s
  | pred => rfl

/-- Relabelling twice is relabelling once by what the second makes of the first. -/
theorem relabel_andThen : (relabel table names places).andThen (relabel table others further) =
    relabel table (others ∘ names) (further ∘ places) := by
  -- Each kind has one map of its own.
  funext kind s
  cases kind with
  | var => rfl
  | const => exact SymbolTable.relocate_relocate further s
  | func => exact SymbolTable.relocate_relocate further s
  | pred => rfl

/-- Renaming variables moves no Skolem symbols. -/
theorem ofVariables_eq_relabel (table : SymbolTable) (names : Variable → Variable) :
    ofVariables names = relabel table names id := by
  -- Skolem symbols stay at their places.
  funext kind s
  cases kind with
  | var => rfl
  | const => exact (SymbolTable.relocate_id s).symm
  | func => exact (SymbolTable.relocate_id s).symm
  | pred => rfl

end SymbolMap

/-- A map that is injective on a finite set is a permutation there. -/
theorem exists_perm_eqOn {Item : Type} {s : Set Item} (finite : s.Finite) {map : Item → Item}
    (injective : s.InjOn map) :
    ∃ permutation : Equiv.Perm Item, ∀ a ∈ s, permutation a = map a := by
  -- The elements and their images are two lists of equal length without repeats.
  have := finite.to_subtype
  obtain ⟨permutation, agrees⟩ := Equiv.Perm.exists_extending_pair (fun a : s => a.1)
    (fun a : s => map a) Subtype.val_injective injective.injective
  exact ⟨permutation, fun a inside => agrees ⟨a, inside⟩⟩

namespace Clause

/--
Lists of clauses of which one becomes the other when variables other than certain ones are renamed,
and when the Skolem symbols that a table gives out are exchanged among each other.
-/
def Variants (table : SymbolTable) (fixed : List Variable) (cs ds : List Clause) : Prop :=
  ∃ (names : Equiv.Perm Variable) (places : Equiv.Perm Nat), (∀ x ∈ fixed, names x = x) ∧
    ds = cs.map (mapSymbols (.relabel table names places))

variable {table : SymbolTable} {fixed : List Variable} {cs ds es : List Clause}

/-- Variants are variants of each other. -/
theorem Variants.symm (variants : Variants table fixed cs ds) : Variants table fixed ds cs := by
  -- The permutations are taken back.
  obtain ⟨names, places, keeps, rfl⟩ := variants
  refine ⟨names.symm, places.symm, fun x listed => ?_, ?_⟩
  · exact names.symm_apply_eq.mpr (keeps x listed).symm
  · -- Renaming back leaves all clauses as they were.
    rw [List.map_map, List.map_congr_left fun c _ => c.mapSymbols_mapSymbols]
    simp only [SymbolMap.relabel_andThen, Equiv.symm_comp_self, SymbolMap.relabel_id]
    exact ((List.map_congr_left fun c _ => c.mapSymbols_identity).trans cs.map_id).symm

/-- Variants of variants are variants. -/
theorem Variants.trans (first : Variants table fixed cs ds) (second : Variants table fixed ds es) :
    Variants table fixed cs es := by
  -- One permutation follows the other, of variables as of places.
  obtain ⟨names, places, keeps, rfl⟩ := first
  obtain ⟨others, further, keeps', rfl⟩ := second
  refine ⟨names.trans others, places.trans further, fun x listed => ?_, ?_⟩
  · rw [Equiv.trans_apply, keeps x listed, keeps' x listed]
  · rw [List.map_map]
    refine List.map_congr_left fun c _ => (c.mapSymbols_mapSymbols).trans ?_
    rw [SymbolMap.relabel_andThen]
    rfl

/-- Renaming different variables differently and moving places apart gives variants. -/
theorem variants_of_injOn {final : SymbolTable} {names : Variable → Variable} {places : Nat → Nat}
    (known : ∀ c ∈ cs, c.Known final) (injective : Set.InjOn names {x | final.Knows x})
    (apart : places.Injective) (old : ∀ x ∈ fixed, final.Knows x)
    (keeps : ∀ x ∈ fixed, names x = x) :
    Variants table fixed cs (cs.map (mapSymbols (.relabel table names places))) := by
  -- Only finitely many variables and places occur.
  have vars : {x : Variable | final.Knows x}.Finite := by
    have different : Function.Injective (Symbol.id : Variable → Nat) :=
      fun _ _ same => congrArg Symbol.mk same
    exact ((Set.finite_lt_nat (final.count .var)).preimage different.injOn).subset
      fun x inside => SymbolTable.knows_iff.mp inside
  obtain ⟨variant, agree⟩ := exists_perm_eqOn vars injective
  obtain ⟨moved, alike⟩ := exists_perm_eqOn
    (Set.finite_lt_nat (final.count .const + final.count .func)) apart.injOn
  refine ⟨variant, moved, fun x listed => (agree x (old x listed)).trans (keeps x listed),
    List.map_congr_left fun c listed => ?_⟩
  -- The places of known symbols are among those where the permutation agrees with the map.
  have place {kind : Kind} {s : Symbol kind}
      (below : s.id < final.count .const + final.count .func) :
      table.relocate places s = table.relocate moved s := by
    by_cases here : table.Knows s
    · rw [SymbolTable.relocate_known here, SymbolTable.relocate_known here]
    · obtain ⟨n, rfl⟩ := SymbolTable.exists_place here
      have small : table.count kind + n < final.count .const + final.count .func := below
      have within : n < final.count .const + final.count .func := by omega
      rw [SymbolTable.relocate_next, SymbolTable.relocate_next, alike n within]
  refine mapSymbols_congr (known_iff_over.mp (known c listed)) fun kind s inside => ?_
  have below := SymbolTable.knows_iff.mp inside
  cases kind with
  | var => exact (agree s inside).symm
  | const => exact place (Nat.lt_add_right _ below)
  | func => exact place (Nat.lt_add_left _ below)
  | pred => rfl

end Clause

end ClauseForm
