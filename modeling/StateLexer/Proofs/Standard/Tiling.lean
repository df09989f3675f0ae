import Mathlib.Data.List.Chain
import StateLexer.Proofs.Standard

/-!
# Tokens tile the input

The tokens of the standard lexer lie one behind the other and leave nothing out.
Where the bytes are cut, they are parted (`Lexeme.parted`), so that the texts of the
tokens are what the text of the input shows there, however malformed the bytes are.

* `scan_lossless`: the tokens of any bytes, and of any string, spell the input;
* `scan_lines`: an input can be scanned line by line;
* `scan_unique`: the tokens of a string are the only ones that are lexemes, one
  behind the other.
-/

namespace StateLexer

variable {canonical : Bool} {kind : Kind} {cs rest : List Char} {next : Option Char}
  {us : List (Char × Nat)} {segs segs' : List (Kind × List (Char × Nat))} {bytes x y : ByteArray}
  {pos : Nat} {ts ts' : List Token}

/-! ## Cuts -/

/-- A lexeme ends with an ASCII character, or in front of one, or at the end. -/
theorem Lexeme.parted (h : Lexeme canonical kind cs next) :
    (∀ c ∈ cs.getLast?, c.val < 0x80) ∨ ∀ c ∈ next, c.val < 0x80 := by
  rcases h.ascii_or with hascii | ⟨-, hrun⟩
  · exact .inl fun c hc => hascii c (List.mem_of_getLast? hc)
  · refine .inr fun c hc => ascii_of_beginsToken ?_
    simpa using hrun.2 c hc

/-- So bytes are parted behind a lexeme. -/
theorem Lexeme.parted_extract {rest : List (Char × Nat)}
    (h : Lexeme canonical kind (us.map Prod.fst) (rest.head?.map Prod.fst))
    (hunits : Utf8.runes.unitsFrom bytes pos = us ++ rest) (hpos : pos ≤ bytes.size) :
    Utf8.Parted (bytes.extract pos (pos + Utf8.span us))
      (bytes.extract (pos + Utf8.span us) bytes.size) := by
  have hparted := h.parted
  rw [List.getLast?_map] at hparted
  exact Utf8.parted_extract hunits hpos (by simpa using hparted)

/-! ## Tiles -/

/-- The tokens lie one behind the other from offset `pos` to the end of the bytes, where
    there is a token for it, and their texts are what the bytes show there. -/
structure Tiles (bytes : ByteArray) (pos : Nat) (ts : List Token) : Prop where
  head : ts.head?.map Token.pos = some ↑pos
  chain : ts.IsChain fun t t' => t.pos < t'.pos ∧
    t.text = Utf8.text (bytes.extract t.pos.toNat t'.pos.toNat)
  last : ∃ init, ts = init ++ [{ kind := .endOfInput, pos := ↑bytes.size, text := "" }] ∧
    ∀ t ∈ init, t.kind ≠ .endOfInput
  concat : Token.concat ts = Utf8.text (bytes.extract pos bytes.size)

theorem Lexeme.kind_ne (h : Lexeme canonical kind cs next) : kind ≠ .endOfInput := by
  cases h <;> decide

/-- The tokens of the segments of bytes tile them. -/
theorem Segments.tiles (h : Segments canonical us segs) (hpos : pos ≤ bytes.size)
    (hunits : Utf8.runes.unitsFrom bytes pos = us) :
    Tiles bytes pos (tokensFrom bytes pos segs) := by
  induction h generalizing pos with
  | nil =>
    have hend := Utf8.runes.span_unitsFrom hpos
    rw [hunits, Utf8.span_nil, Nat.add_zero] at hend
    subst hend
    refine ⟨rfl, .singleton _, ⟨[], rfl, by simp⟩, ?_⟩
    rw [ByteArray.extract_same, Utf8.text_empty]
    rfl
  | @cons kind us rest segs lexeme segments ih =>
    have hlt : pos < pos + Utf8.span us :=
      Nat.lt_add_of_pos_right (Utf8.Decoding.span_pos hunits lexeme.units_ne_nil)
    have hle := Utf8.Decoding.add_span_le hunits hpos
    obtain ⟨hhead, hchain, ⟨init, hlast, hinit⟩, hconcat⟩ :=
      ih hle (Utf8.Decoding.unitsFrom_add_span hunits)
    -- The texts are parted behind the first token.
    have hparted := lexeme.parted_extract hunits hpos
    refine ⟨rfl, hchain.cons fun t ht => ?_, ?_, ?_⟩
    · rw [Option.mem_def.1 ht] at hhead
      have htpos : t.pos = ↑(pos + Utf8.span us) := Option.some.inj hhead
      rw [htpos]
      exact ⟨Int.ofNat_lt.2 hlt, rfl⟩
    · rw [tokensFrom, hlast]
      refine ⟨_ :: init, rfl, fun t ht => ?_⟩
      rcases List.mem_cons.1 ht with rfl | ht
      · exact lexeme.kind_ne
      · exact hinit t ht
    · rw [ByteArray.extract_eq_extract_append_extract (pos + Utf8.span us) hlt.le hle,
        Utf8.text_append hparted, ← hconcat, tokensFrom, Token.concat_cons]

/-- Every token but the last is a lexeme: its window holds the units of one, and others
    follow. -/
theorem Segments.exists_lexeme {t : Token} (h : Segments canonical us segs)
    (hunits : Utf8.runes.unitsFrom bytes pos = us) (ht : t ∈ tokensFrom bytes pos segs)
    (hkind : t.kind ≠ .endOfInput) :
    ∃ pos us rest, Utf8.runes.unitsFrom bytes pos = us ++ rest ∧
      Lexeme canonical t.kind (us.map Prod.fst) (rest.head?.map Prod.fst) ∧
      t.text = Utf8.text (bytes.extract pos (pos + Utf8.span us)) := by
  induction h generalizing pos with
  | nil =>
    rw [List.mem_singleton.1 ht] at hkind
    exact absurd rfl hkind
  | @cons kind us rest segs lexeme segments ih =>
    rcases List.mem_cons.1 ht with rfl | ht
    · exact ⟨pos, us, rest, hunits, lexeme, rfl⟩
    · exact ih (Utf8.Decoding.unitsFrom_add_span hunits) ht

/-! ## Line by line -/

/-- The units of all segments, one behind the other. -/
def unitsOf (segs : List (Kind × List (Char × Nat))) : List (Char × Nat) :=
  segs.flatMap Prod.snd

@[simp] theorem unitsOf_nil : unitsOf [] = [] := rfl

@[simp] theorem unitsOf_cons (seg : Kind × List (Char × Nat)) :
    unitsOf (seg :: segs) = seg.2 ++ unitsOf segs := List.flatMap_cons

theorem Segments.unitsOf_eq (h : Segments canonical us segs) : unitsOf segs = us := by
  induction h with
  | nil => rfl
  | cons lexeme segments ih => rw [unitsOf_cons, ih]

/-- The token of an input that stands `k` bytes further on. -/
def Token.shift (k : Nat) (t : Token) : Token :=
  { t with pos := t.pos + k }

theorem tokensFrom_ne_nil : tokensFrom bytes pos segs ≠ [] := by
  cases segs <;> simp [tokensFrom]

variable (segs segs') in
/-- The tokens of the first segments are followed by those of the others. -/
theorem tokensFrom_append (bytes : ByteArray) (pos : Nat) :
    tokensFrom bytes pos (segs ++ segs') = (tokensFrom bytes pos segs).dropLast ++
      tokensFrom bytes (pos + Utf8.span (unitsOf segs)) segs' := by
  induction segs generalizing pos with
  | nil => simp [tokensFrom]
  | cons seg segs ih =>
    obtain ⟨kind, us⟩ := seg
    rw [List.cons_append, tokensFrom, tokensFrom, List.dropLast_cons_of_ne_nil tokensFrom_ne_nil,
      ih, unitsOf_cons, Utf8.span_append, Nat.add_assoc, List.cons_append]

/-- The kinds of the tokens in front of the end are those of the segments. -/
theorem exists_seg_of_mem_dropLast {t : Token} (ht : t ∈ (tokensFrom bytes pos segs).dropLast) :
    ∃ seg ∈ segs, t.kind = seg.1 := by
  induction segs generalizing pos with
  | nil => exact absurd ht List.not_mem_nil
  | cons seg segs ih =>
    obtain ⟨kind, us⟩ := seg
    rw [tokensFrom, List.dropLast_cons_of_ne_nil tokensFrom_ne_nil] at ht
    rcases List.mem_cons.1 ht with rfl | ht
    · exact ⟨_, List.mem_cons_self, rfl⟩
    · obtain ⟨seg, hseg, hkind⟩ := ih ht
      exact ⟨seg, List.mem_cons_of_mem _ hseg, hkind⟩

/-- The tokens in the first part of bytes are those of that part. -/
theorem tokensFrom_append_left (h : pos + Utf8.span (unitsOf segs) ≤ x.size) :
    tokensFrom (x ++ y) pos segs = tokensFrom x pos segs := by
  induction segs generalizing pos with
  | nil => rfl
  | cons seg segs ih =>
    obtain ⟨kind, us⟩ := seg
    rw [unitsOf_cons, Utf8.span_append, ← Nat.add_assoc] at h
    have hle : pos + Utf8.span us ≤ x.size := Nat.le_trans (Nat.le_add_right _ _) h
    have hextract : (x ++ y).extract pos (pos + Utf8.span us) =
        x.extract pos (pos + Utf8.span us) := by
      rw [ByteArray.extract_append, Nat.sub_eq_zero_of_le hle,
        ByteArray.extract_eq_empty_iff.2 (Nat.le_trans (Nat.min_le_left _ _) (Nat.zero_le _)),
        ByteArray.append_empty]
    rw [tokensFrom, tokensFrom, hextract, ih h]

variable (segs) in
/-- The tokens in the second part of bytes are those of that part, further on. -/
theorem tokensFrom_append_right (x y : ByteArray) (pos : Nat) :
    tokensFrom (x ++ y) (x.size + pos) segs = (tokensFrom y pos segs).map (Token.shift x.size) := by
  induction segs generalizing pos with
  | nil => simp [tokensFrom, Token.shift, Int.add_comm]
  | cons seg segs ih =>
    obtain ⟨kind, us⟩ := seg
    rw [tokensFrom, tokensFrom, Nat.add_assoc, ByteArray.extract_append_size_add, ih, List.map_cons]
    simp [Token.shift, Int.add_comm]

/-- The last token is the end of the input. -/
theorem tokensFrom_eq (bytes : ByteArray) (pos : Nat) :
    tokensFrom bytes pos segs = (tokensFrom bytes pos segs).dropLast ++
      [{ kind := .endOfInput, pos := ↑(pos + Utf8.span (unitsOf segs)), text := "" }] := by
  have happend := tokensFrom_append segs [] bytes pos
  rwa [List.append_nil] at happend

/-- A line feed parts the bytes on either side of it. -/
theorem parted_lineFeed (x y : ByteArray) :
    Utf8.Parted x "\n".toUTF8 ∧ Utf8.Parted (x ++ "\n".toUTF8) y := by
  have hbyte : "\n".toUTF8[0]? = some 10 := by decide
  refine ⟨.inr fun b hb => ?_, .inl fun b hb => ?_⟩
  · rw [hbyte] at hb
    obtain rfl := Option.some.inj hb
    decide
  · have hsize : (x ++ "\n".toUTF8).size - 1 = x.size := by
      rw [ByteArray.size_append]
      rfl
    rw [hsize, Utf8.getElem?_append_size, hbyte] at hb
    obtain rfl := Option.some.inj hb
    decide

/-- An input can be scanned line by line: behind a line feed, the tokens are those of
    the rest, further on, and in front of it they are what they are without the rest. -/
theorem scan_lines (settings : Settings) (file : Option String) (x y : ByteArray) :
    ∃ ts ts', (Lexer.standard.scan settings false file (x ++ "\n".toUTF8)).1 =
        .value (ts ++ [{ kind := .endOfInput, pos := ↑(x.size + 1), text := "" }]) ∧
      (Lexer.standard.scan settings false file y).1 = .value ts' ∧
      (Lexer.standard.scan settings false file (x ++ "\n".toUTF8 ++ y)).1 =
        .value (ts ++ ts'.map (Token.shift (x.size + 1))) := by
  obtain ⟨segs, hsegments, hscan⟩ := scan_standard settings file (x ++ "\n".toUTF8)
  obtain ⟨segs', hsegments', hscan'⟩ := scan_standard settings file y
  obtain ⟨segs'', hsegments'', hscan''⟩ := scan_standard settings file (x ++ "\n".toUTF8 ++ y)
  obtain ⟨hparted, hparted'⟩ := parted_lineFeed x y
  have hsize : (x ++ "\n".toUTF8).size = x.size + 1 := ByteArray.size_append
  have hspan : 0 + Utf8.span (unitsOf segs) = (x ++ "\n".toUTF8).size := by
    rw [hsegments.unitsOf_eq]
    exact Utf8.runes.span_unitsFrom (Nat.zero_le _)
  -- The lexemes in front of the line feed, and those behind, are those of the whole.
  have hend : ∀ u ∈ (Utf8.runes.units (x ++ "\n".toUTF8)).getLast?, u.1 = '\n' := by
    have hunits : Utf8.runes.units "\n".toUTF8 = [('\n', 1)] := Utf8.runes.units_toUTF8 "\n"
    rw [Utf8.runes.units_append hparted, hunits, List.getLast?_concat]
    rintro u hu
    rw [← Option.some.inj hu]
  have hall := hsegments.append hend hsegments'
  rw [← Utf8.runes.units_append hparted'] at hall
  obtain rfl := hsegments''.unique hall
  have hright := tokensFrom_append_right segs' (x ++ "\n".toUTF8) y 0
  rw [Nat.add_zero] at hright
  refine ⟨(tokensFrom (x ++ "\n".toUTF8) 0 segs).dropLast, tokensFrom y 0 segs', ?_, hscan', ?_⟩
  · rw [hscan, ← hsize, ← hspan, ← tokensFrom_eq]
  · rw [hscan'', tokensFrom_append, tokensFrom_append_left hspan.le, hspan, hright, hsize]

/-! ## Strings -/

/-- The tokens are lexemes, one behind the other, that spell a text which begins at
    offset `pos`, and the end of the input behind them. -/
inductive Tokenizes (canonical : Bool) : (pos : Nat) → List Char → List Token → Prop
  | nil {pos : Nat} : Tokenizes canonical pos [] [{ kind := .endOfInput, pos, text := "" }]
  | cons {pos : Nat} {kind : Kind} {cs rest : List Char} {ts : List Token}
      (lexeme : Lexeme canonical kind cs rest.head?)
      (tokens : Tokenizes canonical (pos + (String.ofList cs).utf8ByteSize) rest ts) :
      Tokenizes canonical pos (cs ++ rest) ({ kind, pos, text := String.ofList cs } :: ts)

/-- A text that begins with a lexeme is tokenized behind it. -/
theorem Tokenizes.eq_cons {kind : Kind} {rest : List Char}
    (h : Tokenizes canonical pos (cs ++ rest) ts) (hlexeme : Lexeme canonical kind cs rest.head?) :
    ∃ ts', ts = { kind, pos, text := String.ofList cs } :: ts' ∧
      Tokenizes canonical (pos + (String.ofList cs).utf8ByteSize) rest ts' := by
  generalize hall : cs ++ rest = all at h
  cases h with
  | nil => exact absurd (List.append_eq_nil_iff.1 hall).1 hlexeme.ne_nil
  | cons lexeme tokens =>
    obtain ⟨rfl, rfl⟩ := hlexeme.unique lexeme hall
    obtain rfl := List.append_cancel_left hall
    exact ⟨_, rfl, tokens⟩

/-- There is at most one way to tokenize a text. -/
theorem Tokenizes.unique (h : Tokenizes canonical pos cs ts) (h' : Tokenizes canonical pos cs ts') :
    ts = ts' := by
  induction h generalizing ts' with
  | nil =>
    generalize hcs : ([] : List Char) = cs at h'
    cases h' with
    | nil => rfl
    | cons lexeme tokens => exact absurd (List.append_eq_nil_iff.1 hcs.symm).1 lexeme.ne_nil
  | cons lexeme tokens ih =>
    obtain ⟨ts'', rfl, h''⟩ := h'.eq_cons lexeme
    rw [ih h'']

/-- The units of characters, as they are encoded. -/
def encoded (cs : List Char) : List (Char × Nat) :=
  cs.map fun c => (c, c.utf8Size)

theorem span_encoded (cs : List Char) :
    Utf8.span (encoded cs) = (String.ofList cs).utf8ByteSize := by
  rw [encoded, Utf8.span_encoded, ← String.size_toByteArray, String.toByteArray_ofList]

theorem map_fst_encoded (cs : List Char) : (encoded cs).map Prod.fst = cs := by
  simp [encoded, Function.comp_def]

/-- Where the segments of encoded characters lie in the bytes, they tokenize the text. -/
theorem Segments.tokenizes (h : Segments canonical (encoded cs) segs) (hpos : pos ≤ bytes.size)
    (hbytes : bytes.extract pos bytes.size = cs.utf8Encode) :
    Tokenizes canonical pos cs (tokensFrom bytes pos segs) := by
  generalize hus : encoded cs = us at h
  induction h generalizing cs pos with
  | nil =>
    obtain rfl : cs = [] := List.map_eq_nil_iff.1 hus
    exact .nil
  | @cons kind us rest segs lexeme segments ih =>
    obtain ⟨front, back, rfl, rfl, rfl⟩ : ∃ front back, cs = front ++ back ∧
        encoded front = us ∧ encoded back = rest := List.map_eq_append_iff.1 hus
    -- The bytes of the first lexeme are its encoding, and the others those of the rest.
    have hspan : Utf8.span (encoded front) = front.utf8Encode.size := by
      rw [span_encoded, ← String.size_toByteArray, String.toByteArray_ofList]
    rw [List.utf8Encode_append] at hbytes
    have hsize := congrArg ByteArray.size hbytes
    rw [ByteArray.size_extract, Nat.min_self, ByteArray.size_append, ← hspan] at hsize
    have hle : pos + Utf8.span (encoded front) ≤ bytes.size := by omega
    rw [ByteArray.extract_eq_extract_append_extract (pos + Utf8.span (encoded front))
      (Nat.le_add_right _ _) hle] at hbytes
    have hcut : (bytes.extract pos (pos + Utf8.span (encoded front))).size =
        front.utf8Encode.size := by
      rw [ByteArray.size_extract, ← hspan]
      omega
    have hfront := ByteArray.append_inj_left hbytes hcut
    rw [hfront, ByteArray.append_right_inj] at hbytes
    rw [← List.head?_map, map_fst_encoded, map_fst_encoded] at lexeme
    rw [tokensFrom, hfront, Utf8.text_utf8Encode]
    refine .cons lexeme ?_
    rw [← span_encoded]
    exact ih hle hbytes rfl

/-- The tokens of a string tokenize it. -/
theorem tokenizes_scan (settings : Settings) (file : Option String) (source : String) :
    ∃ ts, (Lexer.standard.scan settings false file source.toUTF8).1 = .value ts ∧
      Tokenizes settings.canonicalOctets 0 source.toList ts := by
  obtain ⟨segs, hsegments, hscan⟩ := scan_standard settings file source.toUTF8
  rw [Utf8.runes.units_toUTF8] at hsegments
  refine ⟨_, hscan, Segments.tokenizes hsegments (Nat.zero_le _) ?_⟩
  rw [ByteArray.extract_zero_size, String.utf8Encode_toList, String.toUTF8_eq_toByteArray]

theorem Tokenizes.head?_pos (h : Tokenizes canonical pos cs ts) :
    ts.head?.map Token.pos = some ↑pos := by
  cases h <;> rfl

/-- Every token ends where the next one begins. -/
theorem Tokenizes.isChain (h : Tokenizes canonical pos cs ts) :
    ts.IsChain fun t t' => t.stop = t'.pos := by
  induction h with
  | nil => exact .singleton _
  | cons lexeme tokens ih =>
    refine ih.cons fun t ht => ?_
    have hhead := tokens.head?_pos
    rw [Option.mem_def.1 ht] at hhead
    exact (Option.some.inj hhead).symm

/-- The tokens spell the text. -/
theorem Tokenizes.concat_eq (h : Tokenizes canonical pos cs ts) :
    Token.concat ts = String.ofList cs := by
  induction h with
  | nil => rfl
  | cons lexeme tokens ih => rw [Token.concat_cons, ih, String.ofList_append]

/-- The tokens of any bytes tile them, and spell what they show as a text. The tokens of
    a string spell it, and each ends where the next one begins. -/
theorem scan_lossless (settings : Settings) (file : Option String) :
    (∀ input, ∃ ts, (Lexer.standard.scan settings false file input).1 = .value ts ∧
        Tiles input 0 ts ∧ Token.concat ts = Utf8.text input) ∧
      ∀ source : String, ∃ ts,
        (Lexer.standard.scan settings false file source.toUTF8).1 = .value ts ∧
          Token.concat ts = source ∧ ts.IsChain fun t t' => t.stop = t'.pos := by
  refine ⟨fun input => ?_, fun source => ?_⟩
  · obtain ⟨segs, hsegments, hscan⟩ := scan_standard settings file input
    have htiles := hsegments.tiles (Nat.zero_le _) rfl
    refine ⟨_, hscan, htiles, ?_⟩
    rw [htiles.concat, ByteArray.extract_zero_size]
  · obtain ⟨ts, hscan, htokenizes⟩ := tokenizes_scan settings file source
    refine ⟨ts, hscan, ?_, htokenizes.isChain⟩
    rw [htokenizes.concat_eq, String.ofList_toList]

/-- The tokens of a string are the only ones that are lexemes, one behind the other,
    and spell the string. -/
theorem scan_unique (settings : Settings) (file : Option String) (source : String) :
    ∃ ts, (Lexer.standard.scan settings false file source.toUTF8).1 = .value ts ∧
      ∀ ts', Tokenizes settings.canonicalOctets 0 source.toList ts' ↔ ts' = ts := by
  obtain ⟨ts, hscan, htokenizes⟩ := tokenizes_scan settings file source
  refine ⟨ts, hscan, fun ts' => ⟨fun h => h.unique htokenizes, ?_⟩⟩
  rintro rfl
  exact htokenizes

end StateLexer
