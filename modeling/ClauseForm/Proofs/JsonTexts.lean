import Mathlib.Tactic.SplitIfs
import ClauseForm.Json.Reader

/-! The compact text of a value is read back as that value. -/

namespace ClauseForm.Json

/-- Values as they are written into documents, with whole strings and natural numbers only. -/
inductive Plain : Json → Prop
  | null : Plain .null
  | bool (b : Bool) : Plain (.bool b)
  | nat (n : Nat) : Plain (.nat n)
  | text (s : String) : Plain (.text s)
  | array {items : List Json} (each : ∀ item ∈ items, Plain item) : Plain (.array items)
  | fields {members : List (String × Json)} (each : ∀ member ∈ members, Plain member.2) :
    Plain (.fields members)

/-- A list of values is plain if each of them is. -/
theorem Plain.map {α : Type} {toJson : α → Json} {values : List α}
    (each : ∀ a ∈ values, (toJson a).Plain) : (Json.array (values.map toJson)).Plain :=
  .array (List.forall_mem_map.mpr each)

/-- A record of one list is plain if each of its items is. -/
theorem Plain.listing {α : Type} {toJson : α → Json} {values : List α} (name : String)
    (each : ∀ a ∈ values, (toJson a).Plain) :
    (Json.fields [(name, .array (values.map toJson))]).Plain := by
  have list := Plain.map each
  exact .fields (by simp [list])

section Numbers

/-- What may follow a number literal without becoming a part of it. -/
def Follows (rest : List Char) : Prop :=
  ∀ c ∈ rest.head?, c.isDigit = false ∧ c ≠ '.' ∧ c ≠ 'e' ∧ c ≠ 'E'

/-- Nothing that follows does not go on with a number. -/
theorem follows_nil : Follows [] := nofun

/-- A comma or a closing bracket ends a number. -/
theorem follows_cons {c : Char} {rest : List Char} (separates : c ∈ [',', ']', '}']) :
    Follows (c :: rest) := by
  intro d first
  obtain rfl : c = d := Option.some.inj first
  simp only [List.mem_cons, List.not_mem_nil, or_false] at separates
  -- None of the three characters goes on with a number.
  rcases separates with rfl | rfl | rfl
  · decide
  · decide
  · decide

namespace Number

/-- The literal of a natural number has its decimal digits. -/
@[simp] theorem text_ofNat (n : Nat) : (ofNat n).text = Nat.toDigits 10 n := by
  simp [text, ofNat]

/-- The literal of a natural number stands for it. -/
@[simp] theorem natural?_ofNat (n : Nat) : (ofNat n).natural? = some n := by
  simp [natural?, ofNat]

/-- Only the digits of zero start with a zero. -/
theorem eq_zero_of_head_toDigits {n : Nat} (zero : (Nat.toDigits 10 n).head? = some '0') :
    n = 0 := by
  -- The first digit stays the same when the last one is cut off.
  induction n using Nat.strongRecOn with
  | ind n ih =>
    by_cases small : n < 10
    · simpa [Nat.toDigits_of_lt_base small] using zero
    · have shorter : n / 10 < n := by omega
      obtain ⟨first, digits, front⟩ :=
        List.exists_cons_of_ne_nil (Nat.toDigits_ne_nil (n := n / 10) (b := 10))
      rw [Nat.toDigits_of_base_le (by decide) (by omega), front] at zero
      have cut := ih (n / 10) shorter (by rw [front]; exact zero)
      omega

/-- Digits are scanned up to the first character that is none. -/
theorem scanDigits?_append {digits rest : List Char} (some_ : digits ≠ [])
    (each : ∀ c ∈ digits, c.isDigit = true) (stop : ∀ c ∈ rest.head?, c.isDigit = false) :
    scanDigits? (digits ++ rest) = some (digits, rest) := by
  -- What follows begins with no digit, so that scanning takes none of it.
  have nothing : rest.takeWhile Char.isDigit = [] := by
    cases rest with
    | nil => rfl
    | cons c rest => simp [stop c rfl]
  have taken : (digits ++ rest).takeWhile Char.isDigit = digits := by
    rw [List.takeWhile_append_of_pos each, nothing, List.append_nil]
  simp [scanDigits?, taken, some_]

/-- The literal of a natural number is scanned as it was written. -/
theorem scan?_ofNat (n : Nat) {rest : List Char} (follows : Follows rest) :
    scan? ((ofNat n).text ++ rest) = some (ofNat n, rest) := by
  -- Every character of the literal is a digit, and there is at least one.
  have digits := fun c (inside : c ∈ Nat.toDigits 10 n) =>
    Nat.isDigit_of_mem_toDigits (by decide) (by decide) inside
  obtain ⟨first, others, cut⟩ :=
    List.exists_cons_of_ne_nil (Nat.toDigits_ne_nil (n := n) (b := 10))
  have whole : scanDigits? (first :: others ++ rest) = some (first :: others, rest) := by
    rw [← cut]
    exact scanDigits?_append Nat.toDigits_ne_nil digits fun c next => (follows c next).1
  -- A leading zero is all there is, and a digit is no sign.
  have single : ¬ ((first :: others).head? = some '0' ∧ (first :: others).length ≠ 1) := by
    intro ⟨zero, more⟩
    rw [← cut] at zero more
    have least := eq_zero_of_head_toDigits zero
    exact more (by rw [least, Nat.toDigits_zero, List.length_singleton])
  have positive : first ≠ '-' := by
    rintro rfl
    have digit := digits '-' (by simp [cut])
    contradiction
  -- What follows starts neither a fraction nor an exponent.
  have fraction : scanFraction? rest = some (none, rest) := by
    cases rest with
    | nil => rfl
    | cons c rest =>
      have point := (follows c rfl).2.1
      simp [scanFraction?, point]
  have exponent : scanExponent? rest = some (none, rest) := by
    cases rest with
    | nil => rfl
    | cons c rest =>
      obtain ⟨_, _, lower, upper⟩ := follows c rfl
      simp [scanExponent?, lower, upper]
  -- The parts that may follow the digits are absent, so that the digits are the whole literal.
  rw [text_ofNat, cut]
  unfold scan?
  split
  rename_i negative text signed
  obtain ⟨rfl, rfl⟩ : false = negative ∧ first :: others ++ rest = text := by
    simpa [positive] using signed
  simp only [whole, fraction, exponent, if_neg single, Option.bind_eq_bind, Option.bind_some,
    Option.pure_def, ofNat, cut]

end Number

end Numbers

section Strings

variable {c d : Char} {rest : List Char} {s : Spelling}

/-- A character that needs no escape is read as it is. -/
theorem readText_printed (quote : c ≠ '"') (slash : c ≠ '\\') (printed : 32 ≤ c.toNat) :
    readText (c :: rest) s = readText rest (s.addChar c) := by
  -- The character takes none of the branches for quotes, escapes and control characters.
  have above : ¬ (c = '\\' ∨ c.toNat < 32) := by
    simp only [slash, false_or]
    omega
  rw [readText, if_neg above]
  · exact quote
  · exact fun _ _ _ _ _ same => (slash same).elim
  · exact fun _ _ same => (slash same).elim

/-- An escape of one letter is read as the character that it stands for. -/
theorem readText_letter (letter : c ≠ 'u') (meaning : unescape? c = some d) :
    readText ('\\' :: c :: rest) s = readText rest (s.addChar d) := by
  -- Only the letter of a code is read on.
  rw [readText, meaning]
  exact fun _ _ _ _ _ same => (letter same).elim

/-- The escape of a control character by its code is read as that character. -/
theorem readText_control (rest : List Char) (s : Spelling) {n : Nat} (control : n < 32) :
    readText ('\\' :: 'u' :: '0' :: '0' :: hexDigit (n / 16) :: hexDigit (n % 16) :: rest) s =
      readText rest (s.addChar (Char.ofNat n)) := by
  -- There are 32 codes, none of which is half of a pair.
  have codes : ∀ i : Fin 32, hexCode? '0' '0' (hexDigit (i / 16)) (hexDigit (i % 16)) = some i ∧
      isLeading i = false ∧ isTrailing i = false := by
    decide
  obtain ⟨code, leading, trailing⟩ := codes ⟨n, control⟩
  rw [readText, code]
  cases half : s.leading with
  | none => simp [Spelling.addCode, half, leading, trailing]
  | some first => simp [Spelling.addCode, half, leading, trailing]

/-- A character is read as it was written. -/
theorem readText_escape (c : Char) (rest : List Char) (s : Spelling) :
    readText (escape c ++ rest) s = readText rest (s.addChar c) := by
  -- A character with a letter of its own is found by its code.
  have named {n : Nat} {l : Char} (code : c.toNat = n) (letter : l ≠ 'u')
      (meaning : unescape? l = some (Char.ofNat n)) :
      readText ('\\' :: l :: rest) s = readText rest (s.addChar c) := by
    rw [← c.ofNat_toNat, code]
    exact readText_letter letter meaning
  -- The escapes are tried in the order in which the writer chooses them.
  unfold escape
  split_ifs with quote slash printed backspace tab line form carriage
  · exact named (congrArg Char.toNat quote) (by decide) rfl
  · exact named (congrArg Char.toNat slash) (by decide) rfl
  · exact readText_printed quote slash printed
  · exact named backspace (by decide) rfl
  · exact named tab (by decide) rfl
  · exact named line (by decide) rfl
  · exact named form (by decide) rfl
  · exact named carriage (by decide) rfl
  · -- What is left to be escaped is a control character.
    have control : c.toNat < 32 := by omega
    have read := readText_control rest s control
    rwa [c.ofNat_toNat] at read

/-- Characters that were read one after the other spell the text that they make up. -/
theorem text?_addChars (chars : List Char) :
    (chars.foldl Spelling.addChar {}).text? = some (String.ofList chars) := by
  have general (s : Spelling) (whole : s.whole = true) (alone : s.leading = none) :
      (chars.foldl Spelling.addChar s).text? = some (String.ofList (s.read.reverse ++ chars)) := by
    -- Each character is put in front of those that were read before it.
    induction chars generalizing s with
    | nil => simp [Spelling.text?, whole, alone]
    | cons c chars ih =>
      rw [List.foldl_cons, ih (s.addChar c) (by simp [Spelling.addChar, whole, alone]) rfl]
      simp [Spelling.addChar]
  exact general {} rfl rfl

/-- The literal of a string is read as that string. -/
theorem readText_writeText (text : String) (rest : List Char) :
    readText (text.toList.flatMap escape ++ '"' :: rest) {} = some (some text, rest) := by
  -- The spelling that has been read so far changes with each character.
  have general (chars : List Char) (s : Spelling) :
      readText (chars.flatMap escape ++ '"' :: rest) s =
        some ((chars.foldl Spelling.addChar s).text?, rest) := by
    induction chars generalizing s with
    | nil => rfl
    | cons c chars ih =>
      rw [List.flatMap_cons, List.append_assoc, readText_escape, ih, List.foldl_cons]
  rw [general, text?_addChars, String.ofList_toList]

end Strings

section Values

/-- A character that is not blank is not skipped. -/
theorem skipBlanks_cons {c : Char} {rest : List Char} (visible : isBlank c = false) :
    skipBlanks (c :: rest) = c :: rest := by
  simp [skipBlanks, visible]

/-- A value is fronted if its text can be seen to start and stands in front of what follows. -/
def Fronted (j : Json) : Prop :=
  ∃ c front, isBlank c = false ∧ c ≠ ']' ∧ ∀ rest, j.write rest = c :: (front ++ rest)

/-- A digit differs from everything that is none. -/
theorem ne_of_isDigit {c d : Char} (digit : c.isDigit = true) (other : d.isDigit = false) :
    c ≠ d := by
  -- A character is a digit or it is none.
  rintro rfl
  rw [digit] at other
  cases other

/-- A digit is not blank. -/
theorem isBlank_of_isDigit {c : Char} (digit : c.isDigit = true) : isBlank c = false := by
  -- No blank character is a digit.
  have different : c ≠ ' ' ∧ c ≠ '\t' ∧ c ≠ '\n' ∧ c ≠ '\r' :=
    ⟨ne_of_isDigit digit rfl, ne_of_isDigit digit rfl, ne_of_isDigit digit rfl,
      ne_of_isDigit digit rfl⟩
  simp [isBlank, different]

/-- The text of a string begins with a quotation mark. -/
theorem exists_writeText (text : String) :
    ∃ front, ∀ rest, writeText (some text) rest = '"' :: (front ++ rest) :=
  ⟨text.toList.flatMap escape ++ ['"'], fun rest => by simp [writeText]⟩

/-- The items of an array are written in front of what follows it. -/
theorem exists_writeItems {items : List Json} (each : ∀ item ∈ items, item.Fronted) :
    ∃ front, ∀ rest, writeItems items rest = front ++ rest := by
  induction items with
  | nil => exact ⟨[']'], fun rest => rfl⟩
  | cons item items ih =>
    -- An item stands in front of those that follow it.
    obtain ⟨⟨c, front, _, _, first⟩, rest⟩ := List.forall_mem_cons.mp each
    obtain ⟨others, further⟩ := ih rest
    exact ⟨',' :: c :: (front ++ others), fun rest => by simp [writeItems, first, further]⟩

/-- The members of an object whose names are whole. -/
def named (members : List (String × Json)) : List (Option String × Json) :=
  members.map fun (name, value) => (some name, value)

/-- No members have no names. -/
@[simp] theorem named_nil : named [] = [] := rfl

/-- Each name is kept beside its value. -/
@[simp] theorem named_cons (name : String) (value : Json) (members : List (String × Json)) :
    named ((name, value) :: members) = (some name, value) :: named members := rfl

/-- The members of an object are written in front of what follows it. -/
theorem exists_writeMembers {members : List (String × Json)}
    (each : ∀ member ∈ members, member.2.Fronted) :
    ∃ front, ∀ rest, writeMembers (named members) rest = front ++ rest := by
  induction members with
  | nil => exact ⟨['}'], fun rest => rfl⟩
  | cons member members ih =>
    -- A member stands in front of those that follow it.
    obtain ⟨name, value⟩ := member
    obtain ⟨label, before⟩ := exists_writeText name
    obtain ⟨⟨c, front, _, _, first⟩, rest⟩ := List.forall_mem_cons.mp each
    obtain ⟨others, further⟩ := ih rest
    refine ⟨',' :: '"' :: (label ++ ':' :: c :: (front ++ others)), fun rest => ?_⟩
    simp [writeMembers, before, first, further]

/-- Every plain value is fronted. -/
theorem Plain.fronted {j : Json} (plain : j.Plain) : j.Fronted := by
  -- The first character tells each kind of value, and the rest of its text does not matter.
  induction plain with
  | null => exact ⟨'n', ['u', 'l', 'l'], rfl, by decide, fun rest => rfl⟩
  | bool b =>
    cases b with
    | false => exact ⟨'f', ['a', 'l', 's', 'e'], rfl, by decide, fun rest => rfl⟩
    | true => exact ⟨'t', ['r', 'u', 'e'], rfl, by decide, fun rest => rfl⟩
  | nat n =>
    obtain ⟨first, digits, cut⟩ :=
      List.exists_cons_of_ne_nil (Nat.toDigits_ne_nil (n := n) (b := 10))
    have digit : first.isDigit = true :=
      Nat.isDigit_of_mem_toDigits (by decide) (by decide) (cut ▸ List.mem_cons_self)
    refine ⟨first, digits, isBlank_of_isDigit digit, ne_of_isDigit digit rfl, fun rest => ?_⟩
    rw [Json.nat, write, Number.text_ofNat, cut, List.cons_append]
  | text s =>
    obtain ⟨front, written⟩ := exists_writeText s
    exact ⟨'"', front, rfl, by decide, fun rest => written rest⟩
  | array each ih =>
    rename_i items
    cases items with
    | nil => exact ⟨'[', [']'], rfl, by decide, fun rest => rfl⟩
    -- The text begins with the bracket and goes on with the first item.
    | cons item items =>
      obtain ⟨⟨c, front, _, _, first⟩, rest⟩ := List.forall_mem_cons.mp ih
      obtain ⟨others, further⟩ := exists_writeItems rest
      refine ⟨'[', c :: (front ++ others), rfl, by decide, fun rest => ?_⟩
      simp [write, first, further]
  | fields each ih =>
    rename_i members
    cases members with
    | nil => exact ⟨'{', ['}'], rfl, by decide, fun rest => rfl⟩
    | cons member members =>
      obtain ⟨name, value⟩ := member
      obtain ⟨label, before⟩ := exists_writeText name
      obtain ⟨⟨c, front, _, _, first⟩, rest⟩ := List.forall_mem_cons.mp ih
      obtain ⟨others, further⟩ := exists_writeMembers rest
      refine ⟨'{', '"' :: (label ++ ':' :: c :: (front ++ others)), rfl, by decide, fun rest => ?_⟩
      show write (.object ((some name, value) :: named members)) rest = _
      simp [write, before, first, further]

/-- A value takes some of the text. -/
theorem Plain.length_write {j : Json} (plain : j.Plain) (rest : List Char) :
    rest.length < (j.write rest).length := by
  obtain ⟨c, front, _, _, written⟩ := plain.fronted
  rw [written, List.length_cons, List.length_append]
  omega

/-- A string takes some of the text. -/
theorem length_writeText (text : String) (rest : List Char) :
    rest.length < (writeText (some text) rest).length := by
  -- At least the quotation mark is there besides what follows.
  obtain ⟨front, written⟩ := exists_writeText text
  rw [written, List.length_cons, List.length_append]
  omega

end Values

section Reading

/--
A value is read back if its text can be read in front of whatever may follow it. Each step of the
reader takes a character or goes down one level.
-/
def ReadsBack (j : Json) : Prop :=
  ∀ (fuel : Nat) (rest : List Char), Follows rest → 2 * (j.write rest).length ≤ fuel →
    readValue fuel (j.write rest) = (j, some rest)

/-- A string is read as it was written. -/
theorem readValue_text (fuel : Nat) (text : String) (rest : List Char) :
    readValue (fuel + 1) (writeText (some text) rest) = (.text text, some rest) := by
  -- Reading starts behind the quotation mark.
  have read := readText_writeText text rest
  simp [readValue, writeText, skipBlanks_cons, isBlank, read, Json.text]

/-- What starts with a digit is read as a number. -/
theorem readValue_digit (fuel : Nat) {c : Char} (digit : c.isDigit = true) (rest : List Char) :
    readValue (fuel + 1) (c :: rest) =
      match Number.scan? (c :: rest) with
      | none => (.broken, none)
      | some (n, rest) => (.number n, some rest) := by
  rw [readValue, skipBlanks_cons (isBlank_of_isDigit digit)]
  -- No other value starts with a digit.
  split
  all_goals first
    | exact absurd (List.cons.inj ‹_›).1 (ne_of_isDigit digit rfl)
    | rfl

/-- A natural number is read as it was written. -/
theorem readValue_nat (fuel n : Nat) {rest : List Char} (follows : Follows rest) :
    readValue (fuel + 1) (write (.nat n) rest) = (.nat n, some rest) := by
  have read := Number.scan?_ofNat n follows
  obtain ⟨first, digits, cut⟩ :=
    List.exists_cons_of_ne_nil (Nat.toDigits_ne_nil (n := n) (b := 10))
  -- The first character is a digit, so that the text is scanned as a number.
  have digit : first.isDigit = true :=
    Nat.isDigit_of_mem_toDigits (by decide) (by decide) (cut ▸ List.mem_cons_self)
  rw [Json.nat, write]
  rw [Number.text_ofNat, cut, List.cons_append] at read ⊢
  rw [readValue_digit fuel digit, read]

/-- The items of an array are read one after the other. -/
theorem readItems_write {item : Json} {items : List Json}
    (plain : ∀ j ∈ item :: items, j.Plain) (each : ∀ j ∈ item :: items, j.ReadsBack)
    {fuel : Nat} {rest : List Char}
    (enough : 2 * (item.write (writeItems items rest)).length < fuel) :
    readItems fuel (item.write (writeItems items rest)) = (item :: items, some rest) := by
  -- The fuel covers the text of all items, of which each one takes its own.
  induction items generalizing item fuel with
  | nil =>
    obtain ⟨fuel, rfl⟩ := Nat.exists_eq_succ_of_ne_zero (by omega : fuel ≠ 0)
    have read := each item (by simp) fuel (']' :: rest) (follows_cons (by simp)) (by
      simp only [writeItems] at enough
      omega)
    simp [readItems, writeItems, read, skipBlanks_cons, isBlank]
  | cons next items ih =>
    obtain ⟨fuel, rfl⟩ := Nat.exists_eq_succ_of_ne_zero (by omega : fuel ≠ 0)
    rw [writeItems] at enough ⊢
    generalize same : next.write (writeItems items rest) = text at enough ⊢
    -- With its comma an item takes some of the text, so that what is left is shorter.
    have shorter := (plain item (by simp)).length_write (',' :: text)
    rw [List.length_cons] at shorter
    have read := each item (by simp) fuel (',' :: text) (follows_cons (by simp)) (by omega)
    have others : readItems fuel text = (next :: items, some rest) := by
      rw [← same] at shorter enough ⊢
      exact ih (fun j listed => plain j (by simp [listed]))
        (fun j listed => each j (by simp [listed])) (by omega)
    simp [readItems, read, skipBlanks_cons, isBlank, others]

/-- The last member of an object has the end of the object behind its value. -/
theorem readMembers_last {fuel : Nat} (name : String) {value : Json} {text rest : List Char}
    (read : readValue fuel text = (value, some ('}' :: rest))) :
    readMembers (fuel + 1) (writeText (some name) (':' :: text)) =
      ([(some name, value)], some rest) := by
  -- The name is read first, and then the value behind the colon.
  have label := readText_writeText name (':' :: text)
  simp [readMembers, writeText, skipBlanks_cons, isBlank, label, read]

/-- All other members of an object have a comma behind their values. -/
theorem readMembers_more {fuel : Nat} (name : String) {value : Json}
    {members : List (Option String × Json)} {text others rest : List Char}
    (read : readValue fuel text = (value, some (',' :: others)))
    (further : readMembers fuel others = (members, some rest)) :
    readMembers (fuel + 1) (writeText (some name) (':' :: text)) =
      ((some name, value) :: members, some rest) := by
  -- The name is read first, and then the value behind the colon.
  have label := readText_writeText name (':' :: text)
  simp [readMembers, writeText, skipBlanks_cons, isBlank, label, read, further]

/-- The members of an object are read one after the other. -/
theorem readMembers_write {name : String} {value : Json} {members : List (String × Json)}
    (plain : ∀ m ∈ (name, value) :: members, m.2.Plain)
    (each : ∀ m ∈ (name, value) :: members, m.2.ReadsBack) {fuel : Nat} {rest : List Char}
    (enough : 2 * (writeText (some name)
      (':' :: value.write (writeMembers (named members) rest))).length < fuel) :
    readMembers fuel (writeText (some name)
      (':' :: value.write (writeMembers (named members) rest))) =
        (named ((name, value) :: members), some rest) := by
  -- The fuel covers the text of all members, of which each one takes its own.
  induction members generalizing name value fuel with
  | nil =>
    obtain ⟨fuel, rfl⟩ := Nat.exists_eq_succ_of_ne_zero (by omega : fuel ≠ 0)
    have shorter := length_writeText name (':' :: value.write ('}' :: rest))
    rw [named_nil, writeMembers] at enough ⊢
    rw [List.length_cons] at shorter
    have within : 2 * (value.write ('}' :: rest)).length ≤ fuel := by omega
    have back : value.ReadsBack := each (name, value) (by simp)
    exact readMembers_last name (back fuel ('}' :: rest) (follows_cons (by simp)) within)
  | cons next members ih =>
    obtain ⟨fuel, rfl⟩ := Nat.exists_eq_succ_of_ne_zero (by omega : fuel ≠ 0)
    obtain ⟨label, following⟩ := next
    rw [named_cons, writeMembers] at enough ⊢
    generalize same : writeText (some label)
      (':' :: following.write (writeMembers (named members) rest)) = others at enough ⊢
    -- Both the name and its value with a comma take some of the text.
    have shorter := length_writeText name (':' :: value.write (',' :: others))
    have left := (plain (name, value) (by simp)).length_write (',' :: others)
    rw [List.length_cons] at shorter left
    have read := each (name, value) (by simp) fuel (',' :: others) (follows_cons (by simp))
      (by simp only at left ⊢; omega)
    have further : readMembers fuel others =
        (named ((label, following) :: members), some rest) := by
      rw [← same] at shorter left enough ⊢
      exact ih (fun m listed => plain m (by simp [listed]))
        (fun m listed => each m (by simp [listed])) (by simp only at left; omega)
    exact readMembers_more name read further

/-- An array whose first item can be seen is read as its items. -/
theorem readValue_items {fuel : Nat} {c : Char} {items : List Json} {text rest : List Char}
    (visible : isBlank c = false) (inside : c ≠ ']')
    (read : readItems fuel (c :: text) = (items, some rest)) :
    readValue (fuel + 1) ('[' :: c :: text) = (.array items, some rest) := by
  -- No blank has to be skipped before the bracket or behind it.
  have bracket : isBlank '[' = false := rfl
  simp [readValue, skipBlanks_cons bracket, skipBlanks_cons visible, inside, read]

/-- An object with a first name is read as its members. -/
theorem readValue_members {fuel : Nat} {name : String} {members : List (Option String × Json)}
    {text rest : List Char}
    (read : readMembers fuel (writeText (some name) text) = (members, some rest)) :
    readValue (fuel + 1) ('{' :: writeText (some name) text) = (.object members, some rest) := by
  have brace : isBlank '{' = false := rfl
  have quote : isBlank '"' = false := rfl
  -- The name stands behind its quotation mark, which is not the end of the object.
  obtain ⟨front, first⟩ := exists_writeText name
  rw [first] at read ⊢
  simp [readValue, skipBlanks_cons brace, skipBlanks_cons quote, read]

/-- There is fuel for a first step, because no text is empty. -/
theorem Plain.readsBack_of_step {j : Json} (plain : j.Plain)
    (step : ∀ (fuel : Nat) (rest : List Char), Follows rest →
      2 * (j.write rest).length ≤ fuel + 1 → readValue (fuel + 1) (j.write rest) = (j, some rest)) :
    j.ReadsBack := by
  intro fuel rest follows enough
  -- Each text has a character, so that twice its length is not zero.
  have taken := plain.length_write rest
  obtain ⟨fuel, rfl⟩ := Nat.exists_eq_succ_of_ne_zero (by omega : fuel ≠ 0)
  exact step fuel rest follows enough

/-- Every plain value is read back. -/
theorem Plain.readsBack {j : Json} (plain : j.Plain) : j.ReadsBack := by
  -- Scalars are read in one step, and arrays and objects have the reader go down one level.
  induction plain with
  | null => exact Plain.null.readsBack_of_step fun fuel rest follows enough => rfl
  | bool b =>
    refine (Plain.bool b).readsBack_of_step fun fuel rest follows enough => ?_
    cases b with
    | false => rfl
    | true => rfl
  | nat n =>
    refine (Plain.nat n).readsBack_of_step fun fuel rest follows enough => ?_
    exact readValue_nat fuel n follows
  | text s =>
    refine (Plain.text s).readsBack_of_step fun fuel rest follows enough => ?_
    exact readValue_text fuel s rest
  | array plain each =>
    rename_i items
    refine (Plain.array plain).readsBack_of_step fun fuel rest follows enough => ?_
    cases items with
    | nil => rfl
    | cons item items =>
      rw [write] at enough ⊢
      rw [List.length_cons] at enough
      have read : readItems fuel (item.write (writeItems items rest)) =
          (item :: items, some rest) := readItems_write plain each (by omega)
      -- The first item can be told from the end of the array.
      obtain ⟨c, front, visible, inside, first⟩ := (plain item (by simp)).fronted
      rw [first] at read ⊢
      exact readValue_items visible inside read
  | fields plain each =>
    rename_i members
    refine (Plain.fields plain).readsBack_of_step fun fuel rest follows enough => ?_
    -- Without members there is only the end of the object.
    cases members with
    | nil => rfl
    | cons member members =>
      obtain ⟨name, value⟩ := member
      show readValue (fuel + 1) (write (.object ((some name, value) :: named members)) rest) =
        (.object ((some name, value) :: named members), some rest)
      have length : 2 * (write (.object ((some name, value) :: named members)) rest).length ≤
          fuel + 1 := enough
      rw [write] at length ⊢
      rw [List.length_cons] at length
      exact readValue_members (readMembers_write plain each (by omega))

/-- The compact text of a plain value is read as that value, and nothing follows it. -/
theorem read_compact {j : Json} (plain : j.Plain) :
    read j.compact = { root := j, ended := true } := by
  -- The reader has fuel for twice the length of the text, which is enough.
  have back := plain.readsBack (2 * (j.write []).length + 1) [] follows_nil (by omega)
  simp [read, compact, back, skipBlanks]

end Reading

end ClauseForm.Json
