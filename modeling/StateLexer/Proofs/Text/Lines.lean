import Mathlib.Data.List.Basic
import Mathlib.Data.Prod.Lex
import StateLexer.Proofs.Text.Decoding
import StateLexer.Text.Location

/-!
# Lines and columns

A location is computed from counts over all bytes in front of an offset, and from the text of
those behind the last line ending. In a string, that is where one gets by reading it from left
to right, with no more than the last character in mind (`Caret`): what a byte changes depends
on the byte in front of it only, and the bytes of a character end no line, unless it does.

* `lineEndings_concat`, `lineEndings_append`, `lastLine_append`: what a byte changes;
* `Caret.fits_behind`: a caret is where the bytes that it has read say;
* `locate_reads`: the location of an offset in a string is that of a caret, and different
  offsets have different locations in the same order, the two sides of a line feed behind a
  carriage return apart.
-/

namespace StateLexer

/-! ## Breaks -/

section Breaks

variable {bs cs : List UInt8} {b : UInt8}

theorem eq_of_isLineBreak (hb : isLineBreak b = true) : b = lineFeed ∨ b = carriageReturn := by
  simpa [isLineBreak] using hb

theorem ascii_of_isLineBreak (hb : isLineBreak b = true) : b < 0x80 := by
  rcases eq_of_isLineBreak hb with rfl | rfl <;> decide

/-- A byte makes a pair with the one in front of it. -/
theorem pairedBreaks_concat (bs : List UInt8) (b : UInt8) : pairedBreaks (bs ++ [b]) =
    pairedBreaks bs + if bs.getLast? = some carriageReturn ∧ b = lineFeed then 1 else 0 := by
  fun_induction pairedBreaks bs with
  | case1 a b' rest ih =>
    rw [List.cons_append, List.cons_append, pairedBreaks, ← List.cons_append, ih,
      List.getLast?_cons_cons, Nat.add_assoc]
  | case2 bs hshort =>
    cases bs with
    | nil => simp [pairedBreaks]
    | cons a bs =>
      cases bs with
      | nil => simp [pairedBreaks]
      | cons b' rest => exact absurd rfl (hshort a b' rest)

/-- A break is one more line ending, unless it makes a pair. -/
theorem lineEndings_concat (bs : List UInt8) (b : UInt8) : lineEndings (bs ++ [b]) =
    lineEndings bs +
      if isLineBreak b = true ∧ ¬(bs.getLast? = some carriageReturn ∧ b = lineFeed) then 1
      else 0 := by
  have hpairs := pairedBreaks_le_count bs
  rw [lineEndings, lineEndings, pairedBreaks_concat, List.count_append, List.count_append]
  by_cases hfeed : b = lineFeed
  · subst hfeed
    have hbreak : isLineBreak lineFeed = true := rfl
    have hfeeds : [lineFeed].count lineFeed = 1 := rfl
    have hreturns : [lineFeed].count carriageReturn = 0 := rfl
    simp only [hbreak, hfeeds, hreturns, and_true, true_and]
    split <;> omega
  · simp only [hfeed, and_false, if_false, not_false_eq_true, and_true]
    by_cases hreturn : b = carriageReturn
    · subst hreturn
      have hbreak : isLineBreak carriageReturn = true := rfl
      have hfeeds : [carriageReturn].count lineFeed = 0 := rfl
      have hreturns : [carriageReturn].count carriageReturn = 1 := rfl
      simp only [hbreak, hfeeds, hreturns, if_true]
      omega
    · have hbreak : isLineBreak b = false := by simp [isLineBreak, hfeed, hreturn]
      simp [hbreak, hfeed, hreturn]

theorem lineEndings_concat_return (bs : List UInt8) :
    lineEndings (bs ++ [carriageReturn]) = lineEndings bs + 1 := by
  rw [lineEndings_concat, if_pos ⟨rfl, fun hpair => absurd hpair.2 (by decide)⟩]

theorem lineEndings_concat_lineFeed (h : bs.getLast? ≠ some carriageReturn) :
    lineEndings (bs ++ [lineFeed]) = lineEndings bs + 1 := by
  rw [lineEndings_concat, if_pos ⟨rfl, fun hpair => h hpair.1⟩]

theorem lineEndings_concat_pair (h : bs.getLast? = some carriageReturn) :
    lineEndings (bs ++ [lineFeed]) = lineEndings bs := by
  rw [lineEndings_concat, if_neg fun hnot => hnot.2 ⟨h, rfl⟩, Nat.add_zero]

/-- Other bytes than breaks end no lines. -/
theorem lineEndings_append (h : ∀ b ∈ cs, isLineBreak b = false) :
    lineEndings (bs ++ cs) = lineEndings bs := by
  induction cs generalizing bs with
  | nil => rw [List.append_nil]
  | cons b cs ih =>
    obtain ⟨hb, hcs⟩ := List.forall_mem_cons.1 h
    rw [List.append_cons, ih hcs, lineEndings_concat, hb]
    simp

/-- They go on with the last line. -/
theorem lastLine_append (h : ∀ b ∈ cs, isLineBreak b = false) :
    lastLine (bs ++ cs) = lastLine bs ++ cs := by
  rw [lastLine, List.reverse_append, List.takeWhile_append_of_pos (by simpa using h),
    List.reverse_append, List.reverse_reverse, lastLine]

theorem lastLine_concat (bs : List UInt8) (hb : isLineBreak b = true) :
    lastLine (bs ++ [b]) = [] := by
  simp [lastLine, hb]

/-- The last line ends where the bytes do. -/
theorem mem_getLast?_of_lastLine (hb : b ∈ (lastLine bs).getLast?) : b ∈ bs.getLast? := by
  rw [lastLine, List.getLast?_reverse, List.head?_takeWhile, List.head?_reverse] at hb
  exact (Option.filter_eq_some_iff.1 hb).1

end Breaks

/-! ## The bytes in front of an offset -/

/-- The bytes in front of offset `i`. -/
def front (bytes : ByteArray) (i : Nat) : List UInt8 :=
  (bytes.extract 0 i).data.toList

/-- The bytes from offset `i` to `j` go on where those in front of `i` end. -/
theorem front_eq_append {bytes : ByteArray} {i j : Nat} (hij : i ≤ j) :
    front bytes j = front bytes i ++ (bytes.extract i j).data.toList := by
  rw [front, ByteArray.extract_eq_extract_append_extract i (Nat.zero_le i) hij,
    ByteArray.data_append, Array.toList_append, front]

/-- An offset in the source is where the bytes in front of it lead. -/
theorem locate_of_le {bytes : ByteArray} {i : Nat} (h : i ≤ bytes.size) (file : Option String) :
    locate bytes i file =
      { line := 1 + lineEndings (front bytes i)
        column := (Utf8.text (lastLine (front bytes i)).toByteArray).length + 1
        offset := i
        file } := by
  have hclamp : clampOffset bytes i = i := by
    rw [clampOffset, Int.toNat_natCast, Nat.min_eq_left h]
  simp only [locate, hclamp, front]

/-! ## Reading a string -/

/-- Characters of one byte differ in that byte. -/
theorem eq_of_toUInt8_eq {c d : Char} (hc : c.utf8Size = 1) (hd : d.utf8Size = 1)
    (h : c.val.toUInt8 = d.val.toUInt8) : c = d := by
  have hc' : c.val.toNat ≤ 127 := Char.utf8Size_eq_one_iff.1 hc
  have hd' : d.val.toNat ≤ 127 := Char.utf8Size_eq_one_iff.1 hd
  have hnat := congrArg UInt8.toNat h
  rw [UInt32.toNat_toUInt8, UInt32.toNat_toUInt8, Nat.mod_eq_of_lt (by omega),
    Nat.mod_eq_of_lt (by omega)] at hnat
  exact Char.ext (UInt32.toNat_inj.1 hnat)

/-- A character that is no break is encoded without any. -/
theorem isLineBreak_of_mem_utf8EncodeChar {c : Char} (hreturn : c ≠ '\r') (hfeed : c ≠ '\n') :
    ∀ b ∈ String.utf8EncodeChar c, isLineBreak b = false := by
  intro b hb
  rw [isLineBreak, Bool.or_eq_false_iff, beq_eq_false_iff_ne, beq_eq_false_iff_ne]
  by_cases hsize : c.utf8Size = 1
  · rw [String.utf8EncodeChar_eq_singleton hsize, List.mem_singleton] at hb
    subst hb
    exact ⟨fun h => hfeed (eq_of_toUInt8_eq hsize rfl h),
      fun h => hreturn (eq_of_toUInt8_eq hsize rfl h)⟩
  · have hle := Utf8.le_of_mem_utf8EncodeChar hsize hb
    constructor
    · rintro rfl
      exact absurd hle (by decide)
    · rintro rfl
      exact absurd hle (by decide)

/-- Where one is in reading a string from left to right. -/
structure Caret where
  line : Int := 1
  column : Int := 1
  /-- The last character was a carriage return. -/
  returned : Bool := false

/-- Line and column, in the order in which one gets there. -/
def Caret.point (p : Caret) : Int ×ₗ Int :=
  toLex (p.line, p.column)

namespace Caret

variable {p : Caret} {bytes : List UInt8} {c : Char} {cs : List Char}

/-- Reads a character. -/
def read (p : Caret) (c : Char) : Caret :=
  if c = '\r' then { line := p.line + 1, column := 1, returned := true }
  else if c = '\n' then
    if p.returned then { p with returned := false }
    else { line := p.line + 1, column := 1, returned := false }
  else { line := p.line, column := p.column + 1, returned := false }

/-- Behind the characters, if they are read from the beginning. -/
def behind (cs : List Char) : Caret :=
  cs.foldl read {}

/-- The caret is where the bytes in front of it say. -/
structure Fits (p : Caret) (bytes : List UInt8) : Prop where
  line_eq : p.line = 1 + lineEndings bytes
  column_eq : ∃ cs : List Char, lastLine bytes = cs.flatMap String.utf8EncodeChar ∧
    p.column = cs.length + 1
  returned_iff : p.returned = true ↔ bytes.getLast? = some carriageReturn

theorem fits_start : Fits {} [] :=
  ⟨rfl, ⟨[], rfl, rfl⟩, by simp⟩

/-- Behind a break, the caret is at the beginning of a line. -/
theorem fits_break {b : UInt8} (hb : isLineBreak b = true)
    (hline : p.line = 1 + lineEndings (bytes ++ [b])) (hcolumn : p.column = 1)
    (hreturned : p.returned = true ↔ b = carriageReturn) : p.Fits (bytes ++ [b]) := by
  refine ⟨hline, ⟨[], lastLine_concat bytes hb, hcolumn⟩, ?_⟩
  rwa [List.getLast?_concat, Option.some_inj]

/-- Behind a carriage return, it is there already. -/
theorem Fits.column_of_returned (h : p.Fits bytes) (hreturned : p.returned = true) :
    p.column = 1 := by
  obtain ⟨cs, hlast, hcolumn⟩ := h.column_eq
  obtain ⟨init, rfl⟩ := List.getLast?_eq_some_iff.1 (h.returned_iff.1 hreturned)
  rw [lastLine_concat init rfl] at hlast
  cases cs with
  | nil => exact hcolumn
  | cons c cs =>
    have hlength := congrArg List.length hlast
    have hsize := c.utf8Size_pos
    simp at hlength
    omega

/-- Any other character is in the same line. -/
theorem Fits.read_other (h : p.Fits bytes) (hreturn : c ≠ '\r') (hfeed : c ≠ '\n') :
    (p.read c).Fits (bytes ++ String.utf8EncodeChar c) := by
  obtain ⟨hline, ⟨cs, hlast, hcolumn⟩, -⟩ := h
  have hencode := isLineBreak_of_mem_utf8EncodeChar hreturn hfeed
  have hne : String.utf8EncodeChar c ≠ [] := by
    rw [← List.length_pos_iff, String.length_utf8EncodeChar]
    exact c.utf8Size_pos
  rw [read, if_neg hreturn, if_neg hfeed]
  refine ⟨?_, ⟨cs ++ [c], ?_, ?_⟩, iff_of_false (by simp) fun hend => ?_⟩
  · rwa [lineEndings_append hencode]
  · rw [lastLine_append hencode, hlast, List.flatMap_append, List.flatMap_singleton]
  · rw [List.length_append, List.length_singleton, hcolumn]
    rfl
  · rw [List.getLast?_append_of_ne_nil _ hne] at hend
    exact absurd (hencode _ (List.mem_of_getLast? hend)) (by decide)

/-- A character that is read keeps the caret where the bytes say. -/
theorem Fits.read (h : p.Fits bytes) (c : Char) :
    (p.read c).Fits (bytes ++ String.utf8EncodeChar c) := by
  have hline := h.line_eq
  by_cases hreturn : c = '\r'
  · subst hreturn
    refine fits_break (b := carriageReturn) rfl ?_ rfl (iff_of_true rfl rfl)
    rw [lineEndings_concat_return, Int.natCast_add, ← Int.add_assoc, ← hline]
    rfl
  by_cases hfeed : c = '\n'
  · subst hfeed
    have hread : p.read '\n' = if p.returned then { p with returned := false }
        else { line := p.line + 1, column := 1, returned := false } := rfl
    rw [hread]
    split
    · next hpair =>
      -- The line has ended with the carriage return.
      refine fits_break (b := lineFeed) rfl ?_ (h.column_of_returned hpair)
        (iff_of_false (by simp) (by decide))
      rwa [lineEndings_concat_pair (h.returned_iff.1 hpair)]
    · next hpair =>
      refine fits_break (b := lineFeed) rfl ?_ rfl (iff_of_false (by simp) (by decide))
      rw [lineEndings_concat_lineFeed (mt h.returned_iff.2 hpair), Int.natCast_add,
        ← Int.add_assoc, ← hline]
      rfl
  · exact h.read_other hreturn hfeed

theorem Fits.foldl (h : p.Fits bytes) (cs : List Char) :
    (cs.foldl Caret.read p).Fits (bytes ++ cs.flatMap String.utf8EncodeChar) := by
  induction cs generalizing p bytes with
  | nil => simpa using h
  | cons c cs ih =>
    have hrest := ih (h.read c)
    rwa [List.append_assoc, ← List.flatMap_cons] at hrest

/-- Behind the characters of a string, the caret is where their bytes say. -/
theorem fits_behind (cs : List Char) : (behind cs).Fits (cs.flatMap String.utf8EncodeChar) :=
  fits_start.foldl cs

theorem returned_read (p : Caret) (c : Char) : (p.read c).returned = true ↔ c = '\r' := by
  by_cases hreturn : c = '\r'
  · simp [read, hreturn]
  by_cases hfeed : c = '\n'
  · cases hpair : p.returned <;> simp [read, hfeed, hpair]
  · simp [read, hreturn, hfeed]

theorem returned_behind (cs : List Char) :
    (behind cs).returned = true ↔ cs.getLast? = some '\r' := by
  rcases List.eq_nil_or_concat cs with rfl | ⟨init, c, rfl⟩
  · simp [behind]
  · rw [List.concat_eq_append, behind, List.foldl_append, List.foldl_cons, List.foldl_nil,
      List.getLast?_concat, Option.some_inj, returned_read]

/-! ## The order of the carets -/

/-- A line feed behind a carriage return does not move the caret. -/
theorem point_read_lineFeed (hreturned : p.returned = true) : (p.read '\n').point = p.point := by
  simp [read, hreturned, point]

/-- Every other character moves it on. -/
theorem point_lt_point_read (h : ¬(p.returned = true ∧ c = '\n')) :
    p.point < (p.read c).point := by
  simp only [point, Prod.Lex.toLex_lt_toLex, read]
  split
  · exact .inl (Int.lt_succ _)
  split
  · next hfeed =>
    rw [if_neg fun hreturned => h ⟨hreturned, hfeed⟩]
    exact .inl (Int.lt_succ _)
  · exact .inr ⟨rfl, Int.lt_succ _⟩

theorem point_le_point_foldl (p : Caret) (cs : List Char) :
    p.point ≤ (cs.foldl read p).point := by
  induction cs generalizing p with
  | nil => exact le_rfl
  | cons c cs ih =>
    refine le_trans ?_ (ih (p.read c))
    by_cases hpair : p.returned = true ∧ c = '\n'
    · obtain ⟨hreturned, rfl⟩ := hpair
      exact (point_read_lineFeed hreturned).ge
    · exact (point_lt_point_read hpair).le

theorem point_lt_point_foldl_cons (cs : List Char) (h : ¬(p.returned = true ∧ c = '\n')) :
    p.point < ((c :: cs).foldl read p).point :=
  lt_of_lt_of_le (point_lt_point_read h) (point_le_point_foldl (p.read c) cs)

/-- There are no characters, or only the line feed that makes a pair. -/
def Stays (returned : Bool) (cs : List Char) : Prop :=
  cs = [] ∨ returned = true ∧ cs = ['\n']

theorem point_foldl_of_stays (h : Stays p.returned cs) : (cs.foldl read p).point = p.point := by
  rcases h with rfl | ⟨hreturned, rfl⟩
  · rfl
  · exact point_read_lineFeed hreturned

/-- Characters move the caret on, unless they are none or the line feed of a pair. -/
theorem point_lt_point_foldl (h : ¬Stays p.returned cs) : p.point < (cs.foldl read p).point := by
  cases cs with
  | nil => exact absurd (.inl rfl) h
  | cons c cs =>
    by_cases hpair : p.returned = true ∧ c = '\n'
    · obtain ⟨hreturned, rfl⟩ := hpair
      cases cs with
      | nil => exact absurd (.inr ⟨hreturned, rfl⟩) h
      | cons d cs =>
        -- The character behind the pair moves it.
        rw [List.foldl_cons, ← point_read_lineFeed hreturned]
        exact point_lt_point_foldl_cons cs fun hpair =>
          absurd ((returned_read p '\n').1 hpair.1) (by decide)
    · exact point_lt_point_foldl_cons cs hpair

end Caret

/-! ## Locations in a string -/

/-- Line and column, in the order of the source. -/
def Location.point (l : Location) : Int ×ₗ Int :=
  toLex (l.line, l.column)

theorem front_append (u v : String) :
    front (u ++ v).toUTF8 u.utf8ByteSize = u.toList.flatMap String.utf8EncodeChar := by
  have hcut : (u ++ v).toUTF8.extract 0 u.utf8ByteSize = u.toList.utf8Encode := by
    rw [String.toUTF8_eq_toByteArray, String.toByteArray_append, String.utf8Encode_toList]
    exact ByteArray.extract_append_eq_left String.size_toByteArray.symm
  rw [front, hcut, List.utf8Encode, List.data_toByteArray]

/-- The location of an offset between two characters is where the caret is there. -/
theorem locate_append (u v : String) (file : Option String) :
    locate (u ++ v).toUTF8 u.utf8ByteSize file =
      { line := (Caret.behind u.toList).line
        column := (Caret.behind u.toList).column
        offset := u.utf8ByteSize
        file } := by
  obtain ⟨hline, ⟨cs, hlast, hcolumn⟩, -⟩ := Caret.fits_behind u.toList
  have hle : u.utf8ByteSize ≤ (u ++ v).toUTF8.size := by
    rw [String.toUTF8_eq_toByteArray, String.size_toByteArray, String.utf8ByteSize_append]
    exact Nat.le_add_right _ _
  have htext : Utf8.text (cs.flatMap String.utf8EncodeChar).toByteArray = String.ofList cs :=
    Utf8.text_utf8Encode cs
  rw [locate_of_le hle, front_append, hlast, htext, String.length_ofList, hline, hcolumn]

theorem point_locate_append (u v : String) (file : Option String) :
    (locate (u ++ v).toUTF8 u.utf8ByteSize file).point = (Caret.behind u.toList).point := by
  rw [locate_append]
  rfl

/-- In a string, the location of an offset between two characters is where a caret gets that
    reads all characters in front of it. Two offsets have the same line and column if, and only
    if, nothing lies between them, or nothing but a line feed behind a carriage return;
    elsewhere the first of them comes first. -/
theorem locate_reads (file : Option String) :
    (∀ u v : String, locate (u ++ v).toUTF8 u.utf8ByteSize file =
      { line := (Caret.behind u.toList).line
        column := (Caret.behind u.toList).column
        offset := u.utf8ByteSize
        file }) ∧
    ∀ u m v : String,
      let l := locate (u ++ m ++ v).toUTF8 u.utf8ByteSize file
      let l' := locate (u ++ m ++ v).toUTF8 (u ++ m).utf8ByteSize file
      (l.point = l'.point ↔ m = "" ∨ u.toList.getLast? = some '\r' ∧ m = "\n") ∧
        (l.point < l'.point ↔ ¬(m = "" ∨ u.toList.getLast? = some '\r' ∧ m = "\n")) := by
  refine ⟨fun u v => locate_append u v file, fun u m v => ?_⟩
  intro l l'
  have hl : l.point = (Caret.behind u.toList).point := by
    simp only [l, String.append_assoc, point_locate_append]
  have hl' : l'.point = (m.toList.foldl Caret.read (Caret.behind u.toList)).point := by
    simp only [l', point_locate_append, String.toList_append, Caret.behind, List.foldl_append]
  have hfeed : m = "\n" ↔ m.toList = ['\n'] := String.toList_inj.symm
  have hstays : (m = "" ∨ u.toList.getLast? = some '\r' ∧ m = "\n") ↔
      Caret.Stays (Caret.behind u.toList).returned m.toList := by
    rw [Caret.Stays, Caret.returned_behind, String.toList_eq_nil_iff, hfeed]
  rw [hl, hl', hstays]
  by_cases h : Caret.Stays (Caret.behind u.toList).returned m.toList
  · have heq := Caret.point_foldl_of_stays h
    exact ⟨iff_of_true heq.symm h, iff_of_false heq.not_gt (not_not_intro h)⟩
  · have hlt := Caret.point_lt_point_foldl h
    exact ⟨iff_of_false hlt.ne h, iff_of_true hlt h⟩

end StateLexer
