import StateLexer.Proofs.Reader.Window
import StateLexer.Proofs.Standard.Tiling
import StateLexer.Proofs.Text.Lines

/-!
# Lines of tokens

Where a token of the standard lexer begins can be told from the tokens in front of it, without
the bytes: its line from the number of line endings among them, and its column from the texts
behind the last of those. For the line, every break must belong to a token for line endings,
and no pair of breaks may be cut in two (`Lexeme.cuts`); for the column, the texts must show what
the bytes of the line show as a whole, which they do as no encoding is cut in two either.

* `Located.step`: a token takes the bytes and the tokens in front of it to the next place;
* `Segments.located`: so they agree in front of every token;
* `scan_located`: the location of each token, from the tokens in front of it.
-/

namespace StateLexer

variable {canonical : Bool} {kind : Kind} {cs : List Char} {us rest : List (Char × Nat)}
  {segs : List (Kind × List (Char × Nat))} {bytes : ByteArray} {pos : Nat}
  {ts before : List Token} {t : Token} {bs window : List UInt8} {next : Option UInt8}

/-! ## The tokens of a line -/

/-- The tokens behind the last line ending. -/
def lastTokens (ts : List Token) : List Token :=
  (ts.reverse.takeWhile (·.kind ≠ .newline)).reverse

/-- The number of characters that the tokens show. -/
def shownLength (ts : List Token) : Nat :=
  (ts.map (·.text.length)).foldr (· + ·) 0

theorem lastTokens_concat (ts : List Token) (ht : t.kind ≠ .newline) :
    lastTokens (ts ++ [t]) = lastTokens ts ++ [t] := by
  simp [lastTokens, ht]

theorem lastTokens_concat_newline (ts : List Token) (ht : t.kind = .newline) :
    lastTokens (ts ++ [t]) = [] := by
  simp [lastTokens, ht]

theorem shownLength_cons (t : Token) (ts : List Token) :
    shownLength (t :: ts) = t.text.length + shownLength ts := rfl

theorem shownLength_concat (ts : List Token) (t : Token) :
    shownLength (ts ++ [t]) = shownLength ts + t.text.length := by
  induction ts with
  | nil => exact Nat.add_comm _ _
  | cons u ts ih => rw [List.cons_append, shownLength_cons, shownLength_cons, ih, Nat.add_assoc]

/-! ## One token -/

/-- What lines tell of the bytes of a token, in front of the byte `next` or at the end: they are
    one line ending that is whole, or nothing of one and parted from what follows. -/
inductive Cuts : Kind → List UInt8 → Option UInt8 → Prop
  | lineFeed {next : Option UInt8} : Cuts .newline [lineFeed] next
  | carriageReturn {next : Option UInt8} (alone : next ≠ some lineFeed) :
      Cuts .newline [carriageReturn] next
  | lineEnding {next : Option UInt8} : Cuts .newline [carriageReturn, lineFeed] next
  | plain {kind : Kind} {window : List UInt8} {next : Option UInt8} (kind_ne : kind ≠ .newline)
      (nonempty : window ≠ []) (plain : ∀ b ∈ window, isLineBreak b = false)
      (parted : (∀ b ∈ window.getLast?, b < 0x80) ∨ ∀ b ∈ next, b < 0x80) : Cuts kind window next

/-- Only tokens for line endings show breaks. -/
theorem Lexeme.not_break {next : Option Char} (h : Lexeme canonical kind cs next)
    (hkind : kind ≠ .newline) : ∀ c ∈ cs, c ≠ '\r' ∧ c ≠ '\n' := by
  have hclass {p : Char → Bool} (hreturn : p '\r' = false) (hfeed : p '\n' = false)
      (hcs : ∀ c ∈ cs, p c = true) : ∀ c ∈ cs, c ≠ '\r' ∧ c ≠ '\n' := by
    intro c hc
    have hp := hcs c hc
    constructor
    · rintro rfl
      exact Bool.false_ne_true (hreturn.symm.trans hp)
    · rintro rfl
      exact Bool.false_ne_true (hfeed.symm.trans hp)
  cases h with
  | space nonempty run => exact hclass rfl rfl run.1
  | lineFeed => exact absurd rfl hkind
  | carriageReturn alone => exact absurd rfl hkind
  | lineEnding => exact absurd rfl hkind
  | address address ends => exact hclass rfl rfl address.inWord
  | hostname letter run name => exact hclass rfl rfl run.1
  | noName letter run noName => exact hclass rfl rfl run.1
  | noAddress digit run noAddress => exact hclass rfl rfl run.1
  | unknown nonempty run => exact hclass rfl rfl run.1

/-- In front of another rune than a line feed, there is another byte. -/
theorem Utf8.ne_lineFeed_of_unitsFrom (hunits : Utf8.runes.unitsFrom bytes pos = us)
    (hnext : us.head?.map Prod.fst ≠ some '\n') : bytes[pos]? ≠ some lineFeed := by
  intro hbyte
  obtain ⟨hlt, -⟩ := getElem?_eq_some_iff.1 hbyte
  refine hnext ?_
  rw [← hunits, Decoding.unitsFrom_of_lt hlt]
  exact congrArg (some ·.1) (runeAt_of_byte hbyte (by decide))

/-- The bytes of a lexeme that is no line ending hold no breaks. -/
theorem Lexeme.plain {next : Option Char} (h : Lexeme canonical kind (us.map Prod.fst) next)
    (hkind : kind ≠ .newline) (hunits : Utf8.runes.unitsFrom bytes pos = us ++ rest) :
    ∀ b ∈ (bytes.extract pos (pos + Utf8.span us)).data.toList, isLineBreak b = false := by
  intro b hb
  obtain ⟨j, hj⟩ := List.mem_iff_getElem?.1 hb
  rw [Utf8.getElem?_toList] at hj
  obtain ⟨hlt, -⟩ := getElem?_eq_some_iff.1 hj
  rw [ByteArray.size_extract] at hlt
  rw [Utf8.getElem?_extract_of (.inl (by omega))] at hj
  rw [← Bool.not_eq_true]
  intro hbreak
  obtain ⟨u, hu, hchar⟩ :=
    Utf8.exists_unit_of_byte hunits (by omega) hj (ascii_of_isLineBreak hbreak)
  obtain ⟨hreturn, hfeed⟩ := h.not_break hkind u.1 (List.mem_map_of_mem hu)
  rcases eq_of_isLineBreak hbreak with rfl | rfl
  · exact hfeed hchar
  · exact hreturn hchar

/-- A lexeme is one line ending that is whole, or nothing of one. -/
theorem Lexeme.cuts (h : Lexeme canonical kind (us.map Prod.fst) (rest.head?.map Prod.fst))
    (hunits : Utf8.runes.unitsFrom bytes pos = us ++ rest) (hpos : pos ≤ bytes.size) :
    Cuts kind (bytes.extract pos (pos + Utf8.span us)).data.toList bytes[pos + Utf8.span us]? := by
  by_cases hkind : kind = .newline
  · have hencode (hcs : Utf8.replacement ∉ us.map Prod.fst) :
        (bytes.extract pos (pos + Utf8.span us)).data.toList =
          (us.map Prod.fst).flatMap String.utf8EncodeChar := by
      rw [Utf8.extract_eq_utf8Encode hunits fun u hu heq => hcs (heq ▸ List.mem_map_of_mem hu),
        List.utf8Encode, List.data_toByteArray]
    have hnext := Utf8.ne_lineFeed_of_unitsFrom (Utf8.Decoding.unitsFrom_add_span hunits)
    generalize us.map Prod.fst = cs at *
    subst hkind
    cases h with
    | lineFeed =>
      rw [hencode (by decide)]
      exact .lineFeed
    | carriageReturn alone =>
      rw [hencode (by decide)]
      exact .carriageReturn (hnext alone)
    | lineEnding =>
      rw [hencode (by decide)]
      exact .lineEnding
  · have hle := Utf8.Decoding.add_span_le hunits hpos
    have hsize : (bytes.extract pos (pos + Utf8.span us)).data.toList.length = Utf8.span us := by
      rw [Array.length_toList, ByteArray.size_data, ByteArray.size_extract]
      omega
    have hparted := h.parted_extract hunits hpos
    refine .plain hkind ?_ (h.plain hkind hunits) ?_
    · rw [← List.length_pos_iff, hsize]
      exact Utf8.Decoding.span_pos hunits h.units_ne_nil
    · rw [Utf8.Parted, Utf8.getElem?_extract, Nat.add_zero] at hparted
      rwa [List.getLast?_eq_getElem?, Utf8.getElem?_toList]

/-! ## All tokens -/

/-- Bytes in front of the byte `next`, or of the end, come to the same line and column as the
    tokens that they make up. -/
structure Located (bs : List UInt8) (next : Option UInt8) (before : List Token) : Prop where
  line_eq : lineEndings bs = before.countP (·.kind = .newline)
  column_eq : (Utf8.text (lastLine bs).toByteArray).length = shownLength (lastTokens before)
  /-- No encoding goes on. -/
  parted : (∀ b ∈ bs.getLast?, b < 0x80) ∨ ∀ b ∈ next, b < 0x80
  /-- No line ending goes on. -/
  whole : ¬(bs.getLast? = some carriageReturn ∧ next = some lineFeed)

theorem located_start (next : Option UInt8) : Located [] next [] :=
  ⟨rfl, congrArg String.length Utf8.text_empty, .inl (by simp), by simp⟩

/-- A token for a line ending begins a new line. -/
theorem Located.newline {b : UInt8} (h : Located bs window.head? before)
    (hlines : lineEndings (bs ++ window) = lineEndings bs + 1) (hlast : window.getLast? = some b)
    (hb : isLineBreak b = true) (hwhole : ¬(b = carriageReturn ∧ next = some lineFeed))
    (ht : t.kind = .newline) : Located (bs ++ window) next (before ++ [t]) := by
  obtain ⟨init, rfl⟩ := List.getLast?_eq_some_iff.1 hlast
  have hlast' : (bs ++ (init ++ [b])).getLast? = some b := by
    rw [← List.append_assoc, List.getLast?_concat]
  refine ⟨?_, ?_, .inl ?_, ?_⟩
  · rw [hlines, h.line_eq]
    simp [ht]
  · rw [← List.append_assoc, lastLine_concat _ hb, lastTokens_concat_newline before ht]
    exact congrArg String.length Utf8.text_empty
  · rw [hlast']
    intro b' hb'
    rw [← Option.some.inj hb']
    exact ascii_of_isLineBreak hb
  · rwa [hlast', Option.some_inj]

/-- A token takes both to the next place. -/
theorem Located.step (h : Located bs window.head? before) (hcuts : Cuts t.kind window next)
    (htext : t.text = Utf8.text window.toByteArray) :
    Located (bs ++ window) next (before ++ [t]) := by
  generalize hkind : t.kind = kind at hcuts
  cases hcuts with
  | lineFeed =>
    refine h.newline ?_ rfl rfl (fun hpair => absurd hpair.1 (by decide)) hkind
    exact lineEndings_concat_lineFeed fun hreturn => h.whole ⟨hreturn, rfl⟩
  | carriageReturn alone =>
    exact h.newline (lineEndings_concat_return bs) rfl rfl (fun hpair => alone hpair.2) hkind
  | lineEnding =>
    refine h.newline ?_ rfl rfl (fun hpair => absurd hpair.1 (by decide)) hkind
    rw [List.append_cons, lineEndings_concat_pair List.getLast?_concat, lineEndings_concat_return]
  | plain kind_ne nonempty plain parted =>
    subst hkind
    have hlast := List.getLast?_append_of_ne_nil bs nonempty
    have hparted : Utf8.Parted (lastLine bs).toByteArray window.toByteArray :=
      Utf8.parted_toByteArray <| h.parted.imp_left fun hascii b hb =>
        hascii b (mem_getLast?_of_lastLine hb)
    refine ⟨?_, ?_, ?_, ?_⟩
    · rw [lineEndings_append plain, h.line_eq]
      simp [kind_ne]
    · rw [lastLine_append plain, List.toByteArray_append, Utf8.text_append hparted,
        String.length_append, h.column_eq, lastTokens_concat before kind_ne, shownLength_concat,
        htext]
    · rwa [hlast]
    · rw [hlast]
      rintro ⟨hreturn, -⟩
      exact absurd (plain _ (List.mem_of_getLast? hreturn)) (by decide)

/-- In front of every token, the bytes and the tokens come to the same place. -/
theorem Segments.located (h : Segments canonical us segs) (hpos : pos ≤ bytes.size)
    (hunits : Utf8.runes.unitsFrom bytes pos = us)
    (hlocated : Located (front bytes pos) bytes[pos]? before) {ts after : List Token}
    (hts : tokensFrom bytes pos segs = ts ++ t :: after) :
    ∃ i ≤ bytes.size, t.pos = ↑i ∧ Located (front bytes i) bytes[i]? (before ++ ts) := by
  induction h generalizing pos before ts with
  | nil =>
    rcases List.singleton_eq_append_iff.1 hts with ⟨rfl, ht⟩ | ⟨-, hnil⟩
    · obtain ⟨rfl, -⟩ := List.cons.inj ht
      exact ⟨pos, hpos, rfl, by rwa [List.append_nil]⟩
    · exact absurd hnil (List.cons_ne_nil t after)
  | @cons kind us rest segs lexeme segments ih =>
    rcases List.cons_eq_append_iff.1 hts with ⟨rfl, ht⟩ | ⟨ts, rfl, htail⟩
    · obtain ⟨rfl, -⟩ := List.cons.inj ht
      exact ⟨pos, hpos, rfl, by rwa [List.append_nil]⟩
    · have hspan := Utf8.Decoding.span_pos hunits lexeme.units_ne_nil
      have hhead : bytes[pos]? = (bytes.extract pos (pos + Utf8.span us)).data.toList.head? := by
        rw [List.head?_eq_getElem?, Utf8.getElem?_toList,
          Utf8.getElem?_extract_of (.inl (Nat.add_lt_add_left hspan pos)), Nat.add_zero]
      rw [hhead] at hlocated
      have hstep := hlocated.step
        (t := ⟨kind, pos, Utf8.text (bytes.extract pos (pos + Utf8.span us))⟩)
        (lexeme.cuts hunits hpos) (by rw [Utf8.toByteArray_toList])
      rw [← front_eq_append (Nat.le_add_right pos _)] at hstep
      rw [List.append_cons]
      exact ih (Utf8.Decoding.add_span_le hunits hpos) (Utf8.Decoding.unitsFrom_add_span hunits)
        hstep htail

/-- Every token is in the line behind all line endings in front of it, and in the column behind
    all characters in front of it that stand behind the last of these. -/
theorem scan_located (settings : Settings) (file : Option String) (input : ByteArray) :
    ∃ ts, (Lexer.standard.scan settings false file input).1 = .value ts ∧
      ∀ before t after, ts = before ++ t :: after → ∀ file',
        (locate input t.pos file').line = 1 + before.countP (·.kind = .newline) ∧
          (locate input t.pos file').column = 1 + shownLength (lastTokens before) := by
  obtain ⟨segs, hsegments, hscan⟩ := scan_standard settings file input
  refine ⟨_, hscan, fun before t after hts file' => ?_⟩
  have hstart : Located (front input 0) input[0]? [] := by
    have hnone : front input 0 = [] := by rw [front, ByteArray.extract_same]; rfl
    rw [hnone]
    exact located_start _
  obtain ⟨i, hi, hpos, hlocated⟩ := hsegments.located (Nat.zero_le _) rfl hstart hts
  rw [hpos, locate_of_le hi, hlocated.line_eq, hlocated.column_eq]
  exact ⟨rfl, Int.add_comm _ _⟩

end StateLexer
