import StateLexer.Proofs.Standard.Tiling

/-!
# Words

A word is a run of letters, digits, hyphens and points that begins with a letter or digit and
cannot be made longer (`IsWord`). No token reaches from in front of it into the word
(`Tokenizes.cut`), so one begins where the word does. That token is the whole word
(`Lexeme.of_word`), unless the word splits: if it begins with an address that has a letter or a
hyphen behind it, then the address is a token, and the rest of the word is scanned on its own.

* `words_atomic`: which words are covered by one token, and where the others are cut.
-/

namespace StateLexer

open Reader (IsRun)

variable {canonical : Bool} {kind : Kind} {c : Char} {cs rest before word : List Char}
  {next : Option Char} {pos : Nat} {ts : List Token}

/-! ## Words of a text -/

/-- Between the characters in front of it and those behind, this is a word. -/
structure IsWord (before word behind : List Char) : Prop where
  begins : ∃ c ∈ word.head?, c.isAlphanum = true
  run : IsRun CharClass.inWord word behind.head?
  apart : ∀ c ∈ before.getLast?, CharClass.inWord c = false

/-- The word begins with the address, and a letter or a hyphen stands behind that. -/
def SplitsAt (canonical : Bool) (word address : List Char) : Prop :=
  Address.IsAddress canonical address ∧
    ∃ c rest, word = address ++ c :: rest ∧ c.isDigit = false ∧ c ≠ '.'

/-- An address can end where the word ends. -/
theorem Reader.IsRun.ends (h : IsRun CharClass.inWord word next) : Address.Ends next := by
  intro c hc
  have hnot := h.2 c hc
  simp only [CharClass.inWord, CharClass.inLabel, CharClass.has, Char.isAlphanum,
    Bool.or_eq_false_iff, decide_eq_false_iff_not] at hnot
  exact ⟨hnot.1.1.2, hnot.2⟩

/-- The kind of token that a whole word is. -/
inductive WordKind (canonical : Bool) : List Char → Kind → Prop
  | hostname {c : Char} {cs : List Char} (letter : c.isAlpha = true)
      (name : DomainName.IsName (c :: cs)) : WordKind canonical (c :: cs) .hostname
  | noName {c : Char} {cs : List Char} (letter : c.isAlpha = true)
      (noName : ¬DomainName.IsName (c :: cs)) : WordKind canonical (c :: cs) .error
  | address {c : Char} {cs : List Char} (digit : c.isDigit = true)
      (address : Address.IsAddress canonical (c :: cs)) : WordKind canonical (c :: cs) .address
  | noAddress {c : Char} {cs : List Char} (digit : c.isDigit = true)
      (noAddress : ¬Address.IsAddress canonical (c :: cs)) : WordKind canonical (c :: cs) .error

/-- A word that does not split is a lexeme. -/
theorem Lexeme.of_word (hc : c ∈ word.head?) (halnum : c.isAlphanum = true)
    (hrun : IsRun CharClass.inWord word next)
    (hwhole : ∀ address, ¬SplitsAt canonical word address) :
    ∃ kind, WordKind canonical word kind ∧ Lexeme canonical kind word next := by
  obtain ⟨cs, rfl⟩ := List.head?_eq_some_iff.1 hc
  rcases Bool.or_eq_true_iff.1 halnum with hletter | hdigit
  · by_cases hname : DomainName.IsName (c :: cs)
    · exact ⟨.hostname, .hostname hletter hname, .hostname hletter hrun hname⟩
    · exact ⟨.error, .noName hletter hname, .noName hletter hrun hname⟩
  · by_cases haddress : Address.IsAddress canonical (c :: cs)
    · exact ⟨.address, .address hdigit haddress, .address haddress hrun.ends⟩
    · refine ⟨.error, .noAddress hdigit haddress, .noAddress hdigit hrun ?_⟩
      intro front rest hword hfront
      cases rest with
      | nil =>
        rw [List.append_nil] at hword
        exact absurd (hword ▸ hfront) haddress
      | cons d rest =>
        refine ⟨d, rfl, by_contra fun hdue => ?_⟩
        obtain ⟨hd, hpoint⟩ := not_or.1 hdue
        exact hwhole front ⟨hfront, d, rest, hword, Bool.eq_false_iff.2 hd, hpoint⟩

/-- What is found at the beginning of a word that splits. -/
theorem SplitsAt.lexeme {address : List Char} (h : SplitsAt canonical word address) :
    ∃ c rest, word = address ++ c :: rest ∧ Lexeme canonical .address address (some c) := by
  obtain ⟨haddress, c, rest, hword, hdigit, hpoint⟩ := h
  refine ⟨c, rest, hword, .address haddress fun d hd => ?_⟩
  obtain rfl := Option.some.inj hd
  exact ⟨hdigit, hpoint⟩

/-- No lexeme reaches over the place between a letter or digit and what is of no word in front
    of it. -/
theorem Lexeme.not_over (h : Lexeme canonical kind (before ++ c :: cs) next)
    (hne : before ≠ []) (halnum : c.isAlphanum = true)
    (hapart : ∀ d ∈ before.getLast?, CharClass.inWord d = false) : False := by
  have hc : c ∈ before ++ c :: cs := List.mem_append_right _ List.mem_cons_self
  rcases h.sorts with ⟨-, hlayout⟩ | ⟨-, hword⟩ | ⟨-, hrun⟩
  · rcases hlayout c hc with rfl | rfl | rfl | rfl <;> exact absurd halnum (by decide)
  · have hlast := List.getLast?_eq_some_getLast hne
    have hinWord := hword _ (List.mem_append_left _ (List.getLast_mem hne))
    rw [hapart _ hlast] at hinWord
    exact Bool.false_ne_true hinWord
  · have hbegins := hrun.1 c hc
    simp [beginsToken, CharClass.has, halnum] at hbegins

/-! ## Tokens of a text -/

namespace Tokenizes

/-- No token begins in front of the text. -/
theorem le_pos (h : Tokenizes canonical pos cs ts) : ∀ t ∈ ts, (pos : Int) ≤ t.pos := by
  induction h with
  | nil => simp
  | cons lexeme tokens ih =>
    refine List.forall_mem_cons.2 ⟨le_rfl, fun t ht => ?_⟩
    have hle := ih t ht
    omega

/-- A text is cut in front of a letter or digit, if no character of a word is in front of
    that. -/
theorem cut (h : Tokenizes canonical pos (before ++ rest) ts) (hc : c ∈ rest.head?)
    (halnum : c.isAlphanum = true)
    (hapart : ∀ d ∈ before.getLast?, CharClass.inWord d = false) :
    ∃ front back, ts = front ++ back ∧
      Tokenizes canonical (pos + (String.ofList before).utf8ByteSize) rest back ∧
      ∀ t ∈ front, t.stop ≤ ((pos + (String.ofList before).utf8ByteSize : Nat) : Int) := by
  generalize hall : before ++ rest = all at h
  induction h generalizing before with
  | nil =>
    obtain rfl := (List.append_eq_nil_iff.1 hall).2
    simp at hc
  | @cons pos kind cs rest' ts lexeme tokens ih =>
    by_cases hne : before = []
    · subst hne
      obtain rfl : rest = cs ++ rest' := hall
      exact ⟨[], _, rfl, by simpa using .cons lexeme tokens, by simp⟩
    · -- The first lexeme ends in front of the letter or digit, so there is a rest to cut.
      obtain ⟨more, rfl, rfl⟩ : ∃ more, before = cs ++ more ∧ rest' = more ++ rest := by
        rcases List.append_eq_append_iff.1 hall with ⟨beyond, hcs, hrest⟩ | hmore
        · cases beyond with
          | nil => exact ⟨[], by simpa using hcs.symm, by simpa using hrest.symm⟩
          | cons d beyond =>
            obtain rfl : d = c := by simpa [hrest] using hc
            rw [hcs] at lexeme
            exact (lexeme.not_over hne halnum hapart).elim
        · exact hmore
      have hlast : ∀ d ∈ more.getLast?, CharClass.inWord d = false := fun d hd =>
        hapart d (by simp [List.getLast?_append, Option.mem_def.1 hd])
      obtain ⟨front, back, rfl, hback, hfront⟩ := ih hlast rfl
      rw [String.ofList_append, String.utf8ByteSize_append, ← Nat.add_assoc]
      refine ⟨_ :: front, back, rfl, hback, List.forall_mem_cons.2 ⟨?_, hfront⟩⟩
      simp only [Token.stop]
      omega

end Tokenizes

/-- The characters, which begin at offset `pos`, are a token of the kind, and all other tokens
    lie in front of them or behind. -/
def IsCovered (ts : List Token) (kind : Kind) (pos : Nat) (cs : List Char) : Prop :=
  ∃ front back, ts = front ++ { kind, pos, text := String.ofList cs } :: back ∧
    (∀ t ∈ front, t.stop ≤ (pos : Int)) ∧
    ∀ t ∈ back, ((pos + (String.ofList cs).utf8ByteSize : Nat) : Int) ≤ t.pos

/-- A lexeme that begins a word of the text is a token. -/
theorem Tokenizes.isCovered (h : Tokenizes canonical 0 (before ++ (cs ++ rest)) ts)
    (hlexeme : Lexeme canonical kind cs rest.head?) (hc : c ∈ cs.head?)
    (halnum : c.isAlphanum = true)
    (hapart : ∀ d ∈ before.getLast?, CharClass.inWord d = false) :
    IsCovered ts kind (String.ofList before).utf8ByteSize cs := by
  have hhead : c ∈ (cs ++ rest).head? := by
    obtain ⟨tail, rfl⟩ := List.head?_eq_some_iff.1 hc
    rfl
  obtain ⟨front, back, rfl, hback, hfront⟩ := h.cut hhead halnum hapart
  rw [Nat.zero_add] at hback hfront
  obtain ⟨ts, rfl, hts⟩ := hback.eq_cons hlexeme
  exact ⟨front, ts, rfl, hfront, hts.le_pos⟩

/-- A word is one token, unless it begins with an address that has a letter or a hyphen behind
    it: then this address is one. -/
theorem words_atomic (settings : Settings) (file : Option String) (source : String) :
    ∃ ts, (Lexer.standard.scan settings false file source.toUTF8).1 = .value ts ∧
      ∀ before word behind, source.toList = before ++ (word ++ behind) →
        IsWord before word behind →
          ((∀ address, ¬SplitsAt settings.canonicalOctets word address) →
            ∃ kind, WordKind settings.canonicalOctets word kind ∧
              IsCovered ts kind (String.ofList before).utf8ByteSize word) ∧
          ∀ address, SplitsAt settings.canonicalOctets word address →
            (∃ c ∈ word.head?, c.isDigit = true) ∧
              IsCovered ts .address (String.ofList before).utf8ByteSize address := by
  obtain ⟨ts, hscan, htokenizes⟩ := tokenizes_scan settings file source
  refine ⟨ts, hscan, fun before word behind hsource hword => ?_⟩
  rw [hsource] at htokenizes
  obtain ⟨⟨c, hc, halnum⟩, hrun, hapart⟩ := hword
  refine ⟨fun hwhole => ?whole, fun address hsplits => ?split⟩
  case whole =>
    obtain ⟨kind, hkind, hlexeme⟩ := Lexeme.of_word hc halnum hrun hwhole
    exact ⟨kind, hkind, htokenizes.isCovered hlexeme hc halnum hapart⟩
  case split =>
    obtain ⟨d, rest, rfl, hlexeme⟩ := hsplits.lexeme
    obtain ⟨c, hc, hdigit⟩ := hsplits.1.head?_eq
    rw [List.append_assoc] at htokenizes
    have halnum : c.isAlphanum = true := by simp [Char.isAlphanum, hdigit]
    refine ⟨⟨c, ?_, hdigit⟩, htokenizes.isCovered hlexeme hc halnum hapart⟩
    obtain ⟨tail, rfl⟩ := List.head?_eq_some_iff.1 hc
    rfl

/-- Where a word begins with an address, that is one token and the rest another. So none of the
    tokens is the word. -/
theorem word_split :
    let ts : List Token := [{ kind := .address, pos := 0, text := "1.2.3.4" },
      { kind := .hostname, pos := 7, text := "x.com" },
      { kind := .endOfInput, pos := 12, text := "" }]
    IsWord [] "1.2.3.4x.com".toList [] ∧
      (Lexer.standard.scan {} false none "1.2.3.4x.com".toUTF8).1 = .value ts ∧
      ∀ kind, ¬IsCovered ts kind 0 "1.2.3.4x.com".toList := by
  intro ts
  refine ⟨⟨⟨'1', rfl, by decide⟩, ⟨List.all_eq_true.1 rfl, by simp⟩, by simp⟩, ?_, ?_⟩
  · exact scan_of_endsWith none ⟨5, by decide +kernel, by decide +kernel⟩
  · rintro kind ⟨front, back, hts, -⟩
    have hmem : { kind, pos := 0, text := String.ofList "1.2.3.4x.com".toList } ∈ ts := by
      rw [hts]
      exact List.mem_append_right _ List.mem_cons_self
    simp [ts] at hmem

end StateLexer
