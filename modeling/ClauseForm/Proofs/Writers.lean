import ClauseForm.Proofs.Relays

/-! A writer is sent the text of all sections, and keeps the beginning that it has room for. -/

namespace ClauseForm

/-- Lines of a section: a heading, the lines it shows, and an empty line. -/
def sectionLines (part : Stage × List String) : List String :=
  ("After " ++ part.1.heading ++ ":") :: part.2.map (" " ++ ·) ++ [""]

/-- Text of sections, with a line break after each of their lines. -/
def traceText (sections : List (Stage × List String)) : String :=
  String.join ((sections.flatMap sectionLines).map (· ++ "\n"))

/-- The text of a section is that of its lines. -/
theorem Sink.sectionText_eq (stage : Stage) (lines : List String) :
    sectionText stage lines = traceText [(stage, lines)] := by
  simp [sectionText, traceText, sectionLines, Function.comp_def, String.append_assoc]

/-- The text of more sections follows that of the first. -/
theorem traceText_cons (part : Stage × List String) (sections : List (Stage × List String)) :
    traceText (part :: sections) = Sink.sectionText part.1 part.2 ++ traceText sections := by
  rw [Sink.sectionText_eq]
  simp [traceText]

section Bytes

variable {first second last : ByteArray} {room : Nat}

/-- Where there is room for all bytes, none are cut off. -/
theorem extract_of_le (fits : first.size ≤ room) : first.extract 0 room = first := by
  ext1
  simp [fits]

/-- Where the second bytes do not fit behind the first, none of the last are left. -/
theorem extract_of_lt (fits : first.size ≤ room) (short : room - first.size < second.size) :
    (first ++ second ++ last).extract 0 room = first ++ second.extract 0 (room - first.size) := by
  -- What is cut off begins before the last bytes do.
  have full : room - (first.size + second.size) = 0 := by omega
  simp [ByteArray.extract_append, extract_of_le fits, full]

end Bytes

namespace Sink

variable {sections : List (Stage × List String)} {written : ByteArray}

/-- A writer without a limit takes the text of all sections. -/
theorem deliver_unlimited : (writing none written).deliver sections =
    (.writing none (written ++ (traceText sections).toUTF8), none) := by
  -- Each section is appended to what has been written before.
  induction sections generalizing written with
  | nil => simp [deliver, traceText]
  | cons part sections ih => simp [deliver, receive, ih, traceText_cons, ByteArray.append_assoc]

/-- A writer with a limit takes as many bytes of the text, and fails unless those are all. -/
theorem deliver_limited {capacity : Nat} (fitted : written.size ≤ capacity) :
    (writing (some capacity) written).deliver sections =
      (.writing (some capacity) ((written ++ (traceText sections).toUTF8).extract 0 capacity),
        if (written ++ (traceText sections).toUTF8).size ≤ capacity then none
        else some .sinkFull) := by
  -- Whether the first section fits decides what becomes of the others.
  induction sections generalizing written with
  | nil => simp [deliver, traceText, fitted, extract_of_le]
  | cons part sections ih =>
    obtain ⟨stage, lines⟩ := part
    have text : (traceText ((stage, lines) :: sections)).toUTF8 =
        (sectionText stage lines).toUTF8 ++ (traceText sections).toUTF8 := by
      simp [traceText_cons]
    rw [text, ← ByteArray.append_assoc]
    by_cases fits : (sectionText stage lines).toUTF8.size ≤ capacity - written.size
    · -- All of the section is taken, and the other ones have the room that is left.
      have still : (written ++ (sectionText stage lines).toUTF8).size ≤ capacity := by
        rw [ByteArray.size_append]
        omega
      rw [← ih still]
      simp only [deliver, receive, extract_of_le fits, if_pos fits]
    · -- What is taken of the section is all that will ever be taken.
      have exceeding : ¬ (written ++ (sectionText stage lines).toUTF8 ++
          (traceText sections).toUTF8).size ≤ capacity := by
        simp only [ByteArray.size_append]
        omega
      rw [extract_of_lt fitted (Nat.lt_of_not_le fits), if_neg exceeding]
      simp only [deliver, receive, if_neg fits]

end Sink

/-- A run that writes this text to writers, each of which takes what it has room for. -/
structure Writes (run : Sink → Outcome) (text : ByteArray) : Prop where
  unlimited : run (.writing none .empty) =
    { run (.recording []) with sink := .writing none text }
  /-- Where there is room for the whole text, a limit makes no difference. -/
  roomy : ∀ capacity, text.size ≤ capacity → run (.writing (some capacity) .empty) =
    { run (.recording []) with sink := .writing (some capacity) text }
  /-- Otherwise the run fails, and the writer keeps as many bytes as it can. -/
  full : ∀ capacity, capacity < text.size →
    (run (.writing (some capacity) .empty)).result = .error (.access .sinkFull) ∧
      (run (.writing (some capacity) .empty)).sink =
        .writing (some capacity) (text.extract 0 capacity)

/-- A run that hands over sections writes their text. -/
theorem HandsOver.writes {run : Sink → Outcome} {sections : List (Stage × List String)}
    (hands : HandsOver run sections) : Writes run (traceText sections).toUTF8 where
  unlimited := by
    -- A writer without a limit refuses nothing.
    refine hands.taken ?_
    rw [Sink.deliver_unlimited, ByteArray.empty_append]
  roomy capacity fits := by
    -- There is room for the whole text, and nothing is cut off.
    refine hands.taken ?_
    rw [Sink.deliver_limited (Nat.zero_le capacity), ByteArray.empty_append, if_pos fits,
      extract_of_le fits]
  full capacity short := by
    -- The text does not fit, so that some section is refused.
    refine hands.refused ?_
    rw [Sink.deliver_limited (Nat.zero_le capacity), ByteArray.empty_append,
      if_neg (Nat.not_le.mpr short)]

end ClauseForm
