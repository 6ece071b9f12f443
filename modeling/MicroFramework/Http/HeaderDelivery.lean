import MicroFramework.Http.LineReading

/-!
# Which headers are read as they were sent

A run of calls returns the lines as they were sent exactly if each of them is read so; a header is
read with its continuation lines, and the connection left behind it, exactly if each of its lines is
read so within what the earlier ones have left of the maximum, and something follows the header.
-/

namespace MicroFramework.Http

open LineReader List

section Headers

variable {line : Line} {maxLineLength : ℤ} {r : LineReader} {rest : List UInt8}

/-- The lines are the next bytes of the connection, however they are cut into segments. -/
structure Arrives (r : LineReader) (lines : List Line) (rest : List UInt8) : Prop where
  proper : ∀ line ∈ lines, line.Proper
  unread : r.unread = lineBytes lines ++ rest
  lineBuf : 0 < r.lineBufLength

/-- A space or a tab, which continues the header. -/
def IsBlank (b : UInt8) : Prop := b = 32 ∨ b = 9

instance (b : UInt8) : Decidable (IsBlank b) := inferInstanceAs (Decidable (_ ∨ _))

/-- Nothing that follows continues the header. -/
def Ends (rest : List UInt8) : Prop := ∀ b ∈ rest.head?, ¬ IsBlank b

/-- The continuation lines of a header are read as they were sent, and something follows. -/
def ContinuationsIntact : ℤ → List Line → Prop
  | maxLineLength, [] => 0 < maxLineLength
  | maxLineLength, line :: lines =>
    line.Intact maxLineLength ∧ ContinuationsIntact (maxLineLength - line.content.length) lines

theorem lineBytes_cons (line : Line) (lines : List Line) :
    lineBytes (line :: lines) = line.bytes ++ lineBytes lines :=
  rfl

theorem lineBytes_append (lines lines' : List Line) :
    lineBytes (lines ++ lines') = lineBytes lines ++ lineBytes lines' :=
  flatMap_append

theorem textLength_cons (line : Line) (lines : List Line) :
    textLength (line :: lines) = line.content.length + textLength lines :=
  rfl

theorem textLength_append (lines lines' : List Line) :
    textLength (lines ++ lines') = textLength lines + textLength lines' := by
  rw [textLength, map_append, sum_append]
  rfl

def textOf (lines : List Line) : List UInt16 := lines.flatMap fun line ↦ asciiText line.content

theorem length_textOf (lines : List Line) : (textOf lines).length = textLength lines := by
  rw [textOf, length_flatMap, textLength]
  simp [asciiText]

theorem exists_head (line : Line) : ∃ b bytes, line.bytes = b :: bytes ∧
    (∀ c ∈ line.content.head?, c = b) := by
  rw [Line.bytes]
  cases line.content with
  | nil =>
    cases line.crlf with
    | true => exact ⟨13, [10], rfl, by intro c hc; cases hc⟩
    | false => exact ⟨10, [], rfl, by intro c hc; cases hc⟩
  | cons c content => exact ⟨c, _, rfl, fun d hd ↦ (Option.mem_some_iff.mp hd).symm⟩

/-! ### The turns of the loop -/

section Turns

variable (turns : ℕ) (strHeader : List UInt16) {b : UInt8}

theorem readHeaderLoop_stop (hmax : 0 < maxLineLength) (hunread : r.unread = b :: rest)
    (hblank : ¬ IsBlank b) :
    ∃ r', readHeaderLoop (turns + 1) maxLineLength strHeader r = (.ok strHeader, r') ∧
      r'.unread = b :: rest := by
  obtain ⟨r', hpeek, hunread', -⟩ := peekByte_cons hunread
  refine ⟨r', ?_, hunread'⟩
  rw [readHeaderLoop, if_pos hmax, hpeek]
  exact if_pos hblank

theorem readHeaderLoop_end (hmax : 0 < maxLineLength) (hunread : r.unread = []) :
    ∃ r', readHeaderLoop (turns + 1) maxLineLength strHeader r = (.error .socket, r') := by
  obtain ⟨r', hpeek⟩ := peekByte_nil hunread
  refine ⟨r', ?_⟩
  rw [readHeaderLoop, if_pos hmax, hpeek]

theorem readHeaderLoop_line (hmax : 0 < maxLineLength) (hunread : r.unread = b :: rest)
    (hblank : IsBlank b) :
    ∃ r' : LineReader, r'.unread = b :: rest ∧ r'.lineBufLength = r.lineBufLength ∧
      readHeaderLoop (turns + 1) maxLineLength strHeader r =
        match r'.readHttpLine maxLineLength with
        | (.error e, r) => (.error e, r)
        | (.ok strLine, r) => readHeaderLoop turns
            (maxLineLength - strLine.length) (strHeader ++ strLine) r := by
  obtain ⟨r', hpeek, hunread', hlength⟩ := peekByte_cons hunread
  refine ⟨r', hunread', hlength, ?_⟩
  rw [readHeaderLoop, if_pos hmax, hpeek]
  exact if_neg (fun hnot ↦ hnot hblank)

theorem readHeaderLoop_tooLong (hmax : ¬ 0 < maxLineLength) :
    readHeaderLoop (turns + 1) maxLineLength strHeader r =
      (.error (.web "HTTP header too long"), r) := by
  rw [readHeaderLoop, if_neg hmax]

end Turns

/-- A header is no longer than the texts of its lines. -/
theorem readHeaderLoop_length (hends : Ends rest) :
    ∀ (turns : ℕ) (maxLineLength : ℤ) (strHeader : List UInt16) (r : LineReader)
      (lines : List Line), Arrives r lines rest → ∀ result r',
        readHeaderLoop turns maxLineLength strHeader r = (.ok result, r') →
          result.length ≤ strHeader.length + textLength lines := by
  intro turns
  induction turns with
  | zero =>
    intro maxLineLength strHeader r lines _ result r' hread
    cases hread
  | succ turns ih =>
    intro maxLineLength strHeader r lines harrives result r' hread
    have hstop : ∀ {b : UInt8} {bytes : List UInt8}, 0 < maxLineLength → r.unread = b :: bytes →
        ¬ IsBlank b → result = strHeader := by
      intro b bytes hmax hunread hblank
      obtain ⟨r₁, hloop, -⟩ := readHeaderLoop_stop turns strHeader hmax hunread hblank
      rw [hloop] at hread
      exact (Except.ok.inj (Prod.mk.inj hread).1).symm
    by_cases hmax : 0 < maxLineLength
    · cases lines with
      | nil =>
        have hunread := harrives.unread
        change r.unread = rest at hunread
        cases hrest : rest with
        | nil =>
          obtain ⟨r₁, hloop⟩ := readHeaderLoop_end turns strHeader hmax (hunread.trans hrest)
          rw [hloop] at hread
          cases hread
        | cons b bytes =>
          have hblank : ¬ IsBlank b := by
            apply hends
            rw [hrest]
            rfl
          rw [hstop hmax (hunread.trans hrest) hblank]
          exact Nat.le_add_right _ _
      | cons line lines =>
        obtain ⟨b, bytes, hbytes, -⟩ := exists_head line
        have hunread := harrives.unread
        rw [lineBytes_cons, hbytes, append_assoc, cons_append] at hunread
        by_cases hblank : IsBlank b
        · obtain ⟨r₁, hunread₁, hlength₁, hloop⟩ :=
            readHeaderLoop_line turns strHeader hmax hunread hblank
          rw [hloop] at hread
          have hline : r₁.unread = line.bytes ++ (lineBytes lines ++ rest) := by
            rw [hunread₁, hbytes]
            rfl
          have hlater : ∀ other ∈ lines, other.Proper :=
            fun other hother ↦ harrives.proper other (mem_cons_of_mem _ hother)
          have houtcome := readHttpLine_outcome (harrives.proper line mem_cons_self) hmax
            (hlength₁ ▸ harrives.lineBuf) hline
          rw [textLength_cons]
          generalize r₁.readHttpLine maxLineLength = outcome at houtcome hread
          cases houtcome with
          | intact hintact hrest hroom =>
            have hle := ih _ _ _ lines ⟨hlater, hrest, hroom⟩ result r' hread
            rw [length_append, asciiText, length_map] at hle
            omega
          | thrown hcut => cases hread
          | cut left hcut hleft hrest hroom hshort =>
            have hproper : ∀ other ∈ left ++ lines, other.Proper := by
              intro other hother
              rcases mem_append.mp hother with hmem | hmem
              · exact hleft other hmem
              · exact hlater other hmem
            have hunread' := hrest
            rw [← append_assoc, ← lineBytes_append] at hunread'
            have hle := ih _ _ _ (left ++ lines) ⟨hproper, hunread', hroom⟩ result r' hread
            rw [length_append, textLength_append] at hle
            omega
        · rw [hstop hmax hunread hblank]
          exact Nat.le_add_right _ _
    · rw [readHeaderLoop_tooLong turns strHeader hmax] at hread
      cases hread

/-- The lines of a header: continuations begin with a blank, and nothing that follows does.  An empty
line is a header of its own. -/
structure IsHeader (first : Line) (continuations : List Line) (rest : List UInt8) : Prop where
  blank : ∀ line ∈ continuations, ∃ b ∈ line.content.head?, IsBlank b
  ends : first.content ≠ [] → Ends rest
  alone : first.content = [] → continuations = []

/-- The lines of a header are read as they were sent, and something follows. -/
def HeaderIntact (maxLineLength : ℤ) (first : Line) (continuations : List Line)
    (rest : List UInt8) : Prop :=
  first.Intact maxLineLength ∧ (first.content ≠ [] →
    ContinuationsIntact (maxLineLength - first.content.length) continuations ∧ rest ≠ [])

theorem textOf_cons (line : Line) (lines : List Line) :
    textOf (line :: lines) = asciiText line.content ++ textOf lines :=
  rfl

theorem length_asciiText (bytes : List UInt8) : (asciiText bytes).length = bytes.length :=
  length_map ..

/-- Exactly the intact continuation lines are appended, and the header ends behind them. -/
theorem readHeaderLoop_iff (hends : Ends rest) (lines : List Line) :
    ∀ (turns : ℕ) (maxLineLength : ℤ) (strHeader : List UInt16) (r : LineReader),
      Arrives r lines rest → (∀ line ∈ lines, ∃ b ∈ line.content.head?, IsBlank b) →
        lines.length < turns →
        ((∃ r', readHeaderLoop turns maxLineLength strHeader r =
            (.ok (strHeader ++ textOf lines), r') ∧ r'.unread = rest) ↔
          ContinuationsIntact maxLineLength lines ∧ rest ≠ []) := by
  induction lines with
  | nil =>
    intro turns maxLineLength strHeader r harrives _ hturns
    obtain ⟨turns, rfl⟩ := Nat.exists_eq_add_of_lt hturns
    rw [length_nil, Nat.zero_add]
    have hunread : r.unread = rest := harrives.unread
    have htext : strHeader ++ textOf [] = strHeader := append_nil _
    rw [htext]
    by_cases hmax : 0 < maxLineLength
    · cases hrest : rest with
      | nil =>
        obtain ⟨r₁, hloop⟩ := readHeaderLoop_end turns strHeader hmax (hunread.trans hrest)
        constructor
        · rintro ⟨r', hread, -⟩
          rw [hloop] at hread
          cases hread
        · rintro ⟨-, hne⟩
          exact absurd rfl hne
      | cons b bytes =>
        have hblank : ¬ IsBlank b := by
          apply hends
          rw [hrest]
          rfl
        obtain ⟨r₁, hloop, hunread₁⟩ :=
          readHeaderLoop_stop turns strHeader hmax (hunread.trans hrest) hblank
        exact iff_of_true ⟨r₁, hloop, hunread₁⟩ ⟨hmax, cons_ne_nil _ _⟩
    · constructor
      · rintro ⟨r', hread, -⟩
        rw [readHeaderLoop_tooLong turns strHeader hmax] at hread
        cases hread
      · rintro ⟨hpos, -⟩
        exact absurd hpos hmax
  | cons line lines ih =>
    intro turns maxLineLength strHeader r harrives hblanks hturns
    obtain ⟨turns, rfl⟩ := Nat.exists_eq_add_of_lt hturns
    have hturns' : lines.length < (line :: lines).length + turns := by
      rw [length_cons]
      omega
    by_cases hmax : 0 < maxLineLength
    · obtain ⟨b, hb, hblank⟩ := hblanks line mem_cons_self
      obtain ⟨b', bytes, hbytes, hhead⟩ := exists_head line
      obtain rfl := hhead b hb
      have hunread := harrives.unread
      rw [lineBytes_cons, hbytes, append_assoc, cons_append] at hunread
      obtain ⟨r₁, hunread₁, hlength₁, hloop⟩ :=
        readHeaderLoop_line ((line :: lines).length + turns) strHeader hmax hunread hblank
      have hline : r₁.unread = line.bytes ++ (lineBytes lines ++ rest) := by
        rw [hunread₁, hbytes]
        rfl
      have hlater : ∀ other ∈ lines, other.Proper :=
        fun other hother ↦ harrives.proper other (mem_cons_of_mem _ hother)
      have houtcome := readHttpLine_outcome (harrives.proper line mem_cons_self) hmax
        (hlength₁ ▸ harrives.lineBuf) hline
      rw [hloop, textOf_cons]
      generalize r₁.readHttpLine maxLineLength = outcome at houtcome
      cases houtcome with
      | intact hintact hrest hroom =>
        have hrec := ih ((line :: lines).length + turns) (maxLineLength - line.content.length)
          (strHeader ++ asciiText line.content) _ ⟨hlater, hrest, hroom⟩
          (fun other hother ↦ hblanks other (mem_cons_of_mem _ hother)) hturns'
        rw [← append_assoc]
        simp only [length_asciiText]
        rw [hrec, ContinuationsIntact, and_assoc]
        exact ⟨fun h ↦ ⟨hintact, h⟩, fun h ↦ h.2⟩
      | thrown hcut =>
        constructor
        · rintro ⟨r', hread, -⟩
          cases hread
        · rintro ⟨hintact, -⟩
          exact absurd hintact.1 hcut
      | cut left hcut hleft hrest hroom hshort =>
        constructor
        · rintro ⟨r', hread, -⟩
          exfalso
          have hproper : ∀ other ∈ left ++ lines, other.Proper := by
            intro other hother
            rcases mem_append.mp hother with hmem | hmem
            · exact hleft other hmem
            · exact hlater other hmem
          rw [← append_assoc, ← lineBytes_append] at hrest
          have hle := readHeaderLoop_length hends _ _ _ _ (left ++ lines)
            ⟨hproper, hrest, hroom⟩ _ r' hread
          simp only [length_append, textLength_append, length_asciiText, length_textOf] at hle
          omega
        · rintro ⟨hintact, -⟩
          exact absurd hintact.1 hcut
    · constructor
      · rintro ⟨r', hread, -⟩
        rw [readHeaderLoop_tooLong _ strHeader hmax] at hread
        cases hread
      · rintro ⟨hintact, -⟩
        have hfits := hintact.1.fits
        omega

theorem length_le_lineBytes (lines : List Line) : lines.length ≤ (lineBytes lines).length := by
  induction lines with
  | nil => exact le_refl _
  | cons line lines ih =>
    obtain ⟨b, bytes, hbytes, -⟩ := exists_head line
    rw [lineBytes_cons, length_append, length_cons, hbytes, length_cons]
    omega

/-- A header is read as it was sent exactly if its lines are intact. -/
theorem readHttpHeader_iff {first : Line} {continuations : List Line}
    (harrives : Arrives r (first :: continuations) rest)
    (hheader : IsHeader first continuations rest) (hmax : 0 < maxLineLength) :
    (∃ r', r.readHttpHeader maxLineLength = (.ok (textOf (first :: continuations)), r') ∧
        r'.unread = rest) ↔
      HeaderIntact maxLineLength first continuations rest := by
  have hunread := harrives.unread
  rw [lineBytes_cons, append_assoc] at hunread
  have hlater : ∀ other ∈ continuations, other.Proper :=
    fun other hother ↦ harrives.proper other (mem_cons_of_mem _ hother)
  have houtcome := readHttpLine_outcome (harrives.proper first mem_cons_self) hmax
    harrives.lineBuf hunread
  rw [readHttpHeader, textOf_cons, HeaderIntact]
  generalize r.readHttpLine maxLineLength = outcome at houtcome
  cases houtcome with
  | @intact r₁ hintact hrest hroom =>
    simp only
    by_cases hempty : first.content = []
    · have hnil : asciiText first.content = [] := by
        rw [hempty]
        rfl
      have halone := hheader.alone hempty
      rw [halone] at hrest
      rw [if_pos hnil, hnil, halone]
      exact iff_of_true ⟨r₁, rfl, hrest⟩ ⟨hintact, fun hne ↦ absurd hempty hne⟩
    · have hne : asciiText first.content ≠ [] := by
        intro hnil
        exact hempty (map_eq_nil_iff.mp hnil)
      have hturns : continuations.length < r₁.unread.length + 1 := by
        have hle := length_le_lineBytes continuations
        rw [hrest, length_append]
        omega
      rw [if_neg hne, readHeaderLoop_iff (hheader.ends hempty) continuations _ _ _ r₁
        ⟨hlater, hrest, hroom⟩ hheader.blank hturns, length_asciiText]
      exact ⟨fun h ↦ ⟨hintact, fun _ ↦ h⟩, fun h ↦ h.2 hempty⟩
  | thrown hcut =>
    constructor
    · rintro ⟨r', hread, -⟩
      cases hread
    · rintro ⟨hintact, -⟩
      exact absurd hintact hcut
  | cut left hcut hleft hrest hroom hshort =>
    constructor
    · rintro ⟨r', hread, -⟩
      exfalso
      have hlong : 0 < first.content.length := by omega
      simp only at hread
      split at hread
      · rename_i hnil
        have hlength := congrArg List.length (Except.ok.inj (Prod.mk.inj hread).1)
        rw [hnil, length_append, length_asciiText, length_nil] at hlength
        omega
      · have hproper : ∀ other ∈ left ++ continuations, other.Proper := by
          intro other hother
          rcases mem_append.mp hother with hmem | hmem
          · exact hleft other hmem
          · exact hlater other hmem
        rw [← append_assoc, ← lineBytes_append] at hrest
        have hends : Ends rest := by
          apply hheader.ends
          intro hempty
          rw [hempty] at hlong
          exact absurd hlong (lt_irrefl 0)
        have hle := readHeaderLoop_length hends _ _ _ _ (left ++ continuations)
          ⟨hproper, hrest, hroom⟩ _ r' hread
        simp only [length_append, textLength_append, length_asciiText, length_textOf] at hle
        omega
    · rintro ⟨hintact, -⟩
      exact absurd hintact hcut

/-- Successive lines are read as they were sent exactly if each of them is intact. -/
theorem readHttpLines_iff (lines : List Line) :
    ∀ r : LineReader, Arrives r lines rest →
      (∀ line ∈ lines, (line.content.length : ℤ) < maxLineLength) →
        ((readHttpLines maxLineLength lines.length r).1 =
              lines.map (fun line ↦ .ok (asciiText line.content)) ∧
            (readHttpLines maxLineLength lines.length r).2.unread = rest ↔
          ∀ line ∈ lines, line.Intact maxLineLength) := by
  induction lines with
  | nil =>
    intro r harrives _
    apply iff_of_true ⟨rfl, harrives.unread⟩
    intro line hline
    cases hline
  | cons line lines ih =>
    intro r harrives hmax
    have hunread := harrives.unread
    rw [lineBytes_cons, append_assoc] at hunread
    have hlater : ∀ other ∈ lines, other.Proper :=
      fun other hother ↦ harrives.proper other (mem_cons_of_mem _ hother)
    have hfits := hmax line mem_cons_self
    have hpos : 0 < maxLineLength := by omega
    have houtcome := readHttpLine_outcome (harrives.proper line mem_cons_self) hpos
      harrives.lineBuf hunread
    rw [length_cons, readHttpLines, map_cons, forall_mem_cons]
    simp only
    generalize r.readHttpLine maxLineLength = outcome at houtcome
    cases houtcome with
    | @intact r₁ hintact hrest hroom =>
      have hrec := ih r₁ ⟨hlater, hrest, hroom⟩
        (fun other hother ↦ hmax other (mem_cons_of_mem _ hother))
      rw [List.cons.injEq, ← hrec]
      exact ⟨fun h ↦ ⟨hintact, h.1.2, h.2⟩, fun h ↦ ⟨⟨rfl, h.2.1⟩, h.2.2⟩⟩
    | thrown hcut =>
      apply iff_of_false
      · rintro ⟨hresults, -⟩
        cases (List.cons.inj hresults).1
      · rintro ⟨hintact, -⟩
        exact hcut hintact
    | cut left hcut hleft hrest hroom hshort =>
      apply iff_of_false
      · rintro ⟨hresults, -⟩
        have hlength := congrArg List.length (Except.ok.inj (List.cons.inj hresults).1)
        rw [length_asciiText] at hlength
        omega
      · rintro ⟨hintact, -⟩
        exact hcut hintact

/-- Lines and headers are read as they were sent, however the bytes are cut into segments, exactly if
they are intact. -/
theorem header_lines_iff (r : LineReader) (maxLineLength : ℤ) :
    (∀ lines rest, Arrives r lines rest →
      (∀ line ∈ lines, (line.content.length : ℤ) < maxLineLength) →
        ((readHttpLines maxLineLength lines.length r).1 =
              lines.map (fun line ↦ .ok (asciiText line.content)) ∧
            (readHttpLines maxLineLength lines.length r).2.unread = rest ↔
          ∀ line ∈ lines, line.Intact maxLineLength)) ∧
      ∀ first continuations rest, Arrives r (first :: continuations) rest →
        IsHeader first continuations rest →
        (∀ line ∈ first :: continuations, (line.content.length : ℤ) < maxLineLength) →
          ((∃ r', r.readHttpHeader maxLineLength =
                (.ok (textOf (first :: continuations)), r') ∧ r'.unread = rest) ↔
            HeaderIntact maxLineLength first continuations rest) := by
  constructor
  · intro lines rest harrives hmax
    exact readHttpLines_iff lines r harrives hmax
  · intro first continuations rest harrives hheader hmax
    have hfits := hmax first mem_cons_self
    exact readHttpHeader_iff harrives hheader (by omega)

def connection (segments : List (List UInt8)) : LineReader where
  stream := segments
  buffered := []
  enableChunkedDecoding := false
  chunk := none
  bytesLeftInResponse := -1
  lineBufLength := 80

/-- Two lines that end in CR LF, cut between the CR and the LF. -/
theorem header_lines_two :
    (readHttpLines 100 2 (connection [[71, 69, 84, 13], [10, 72, 13, 10, 88]])).1 =
      [.ok [71, 69, 84], .ok [72]] := by
  have harrives : Arrives (connection [[71, 69, 84, 13], [10, 72, 13, 10, 88]])
      [⟨[71, 69, 84], true⟩, ⟨[72], true⟩] [88] := by
    refine ⟨?_, rfl, by decide⟩
    intro line hline
    rcases mem_pair.mp hline with rfl | rfl
    · exact ⟨Utf.forall_mem_of_all (by decide), Utf.forall_mem_of_all (by decide), by decide⟩
    · exact ⟨Utf.forall_mem_of_all (by decide), Utf.forall_mem_of_all (by decide), by decide⟩
  have hintact : ∀ line ∈ [(⟨[71, 69, 84], true⟩ : Line), ⟨[72], true⟩], line.Intact 100 := by
    intro line hline
    rcases mem_pair.mp hline with rfl | rfl
    · exact ⟨Utf.forall_mem_of_all (by decide), by decide, .inl ⟨rfl, by decide⟩⟩
    · exact ⟨Utf.forall_mem_of_all (by decide), by decide, .inl ⟨rfl, by decide⟩⟩
  exact (((header_lines_iff _ 100).1 _ _ harrives fun line hline ↦ (hintact line hline).fits).mpr
    hintact).1

/-- A line that ends in LF alone loses its last character. -/
theorem lf_line_cut :
    ¬ ∀ (r : LineReader) (lines : List Line) (rest : List UInt8) (maxLineLength : ℤ),
      Arrives r lines rest → (∀ line ∈ lines, (line.content.length : ℤ) < maxLineLength) →
        (readHttpLines maxLineLength lines.length r).1 =
          lines.map (fun line ↦ .ok (asciiText line.content)) := by
  intro h
  have harrives : Arrives (connection [[71, 69, 84, 10, 88]]) [⟨[71, 69, 84], false⟩] [88] := by
    refine ⟨?_, rfl, by decide⟩
    intro line hline
    rw [mem_singleton.mp hline]
    exact ⟨Utf.forall_mem_of_all (by decide), Utf.forall_mem_of_all (by decide), by decide⟩
  have hread := h _ _ _ 100 harrives (by intro line hline; rw [mem_singleton.mp hline]; decide)
  have hcut : (readHttpLines 100 1 (connection [[71, 69, 84, 10, 88]])).1 = [.ok [71, 69]] := by
    decide
  have hlength := congrArg (List.map fun result ↦ match result with
    | Except.ok text => List.length text
    | .error _ => 0) (hcut.symm.trans hread)
  exact absurd hlength (by decide)

end Headers

end MicroFramework.Http
