import StateLexer.Grammar
import StateLexer.Proofs.Recognizer.Address
import StateLexer.Proofs.Recognizer.Name

/-!
# Lexemes

What the tokens of the standard lexer are, without regard to how they are found: a
text is a *lexeme* of a kind, in front of a character or the end of the input
(`Lexeme`), if it belongs to the kind and cannot be made longer. The characters of a
text can be cut into lexemes (`Segments`) in at most one way (`Segments.unique`), and
a text that ends with a line feed and another can be cut apart (`Segments.append`),
since no lexeme goes on behind a line feed and none looks further than one character.

* `lexeme_iff`: a lexeme is what the state for its first character yields
  (`Standard.Yields`), which is how the lexer finds it;
* `Lexeme.sorts`: its characters are layout, or those of a word, or begin no token;
* `Lexeme.unique`: there is one lexeme at the beginning of a text.
-/

namespace StateLexer

open Reader (IsRun)

variable {canonical : Bool} {kind kind' : Kind} {cs cs' rest rest' : List Char} {c : Char}
  {next : Option Char}

/-- The character is a space or a tab. -/
def isBlank (c : Char) : Bool :=
  CharClass.whitespace.has c

/-- Tokens of the kind lie between words: they are blank, or end a line, or the input. -/
def Kind.isLayout : Kind → Bool
  | space | newline | endOfInput => true
  | error | address | hostname => false

/-- The text is a lexeme of the kind, in front of the character `next` or at the end
    of the input. -/
inductive Lexeme (canonical : Bool) : Kind → List Char → Option Char → Prop
  /-- A run of spaces and tabs. -/
  | space {cs : List Char} {next : Option Char} (nonempty : cs ≠ []) (run : IsRun isBlank cs next) :
      Lexeme canonical .space cs next
  | lineFeed {next : Option Char} : Lexeme canonical .newline ['\n'] next
  | carriageReturn {next : Option Char} (alone : next ≠ some '\n') :
      Lexeme canonical .newline ['\r'] next
  | lineEnding {next : Option Char} : Lexeme canonical .newline ['\r', '\n'] next
  /-- An address, with no digit and no point behind it. -/
  | address {cs : List Char} {next : Option Char} (address : Address.IsAddress canonical cs)
      (ends : Address.Ends next) : Lexeme canonical .address cs next
  /-- A word that begins with a letter and is a name. -/
  | hostname {c : Char} {cs : List Char} {next : Option Char} (letter : c.isAlpha = true)
      (run : IsRun CharClass.inWord (c :: cs) next) (name : DomainName.IsName (c :: cs)) :
      Lexeme canonical .hostname (c :: cs) next
  /-- A word that begins with a letter and is no name. -/
  | noName {c : Char} {cs : List Char} {next : Option Char} (letter : c.isAlpha = true)
      (run : IsRun CharClass.inWord (c :: cs) next) (noName : ¬DomainName.IsName (c :: cs)) :
      Lexeme canonical .error (c :: cs) next
  /-- A word that begins with a digit, but with no address that ends there. -/
  | noAddress {c : Char} {cs : List Char} {next : Option Char} (digit : c.isDigit = true)
      (run : IsRun CharClass.inWord (c :: cs) next)
      (noAddress : ∀ front rest, c :: cs = front ++ rest → Address.IsAddress canonical front →
        ∃ d ∈ rest.head?, d.isDigit = true ∨ d = '.') :
      Lexeme canonical .error (c :: cs) next
  /-- A run of characters that begin no token. -/
  | unknown {cs : List Char} {next : Option Char} (nonempty : cs ≠ [])
      (run : IsRun (fun c => !beginsToken c) cs next) : Lexeme canonical .error cs next

/-- What a state of the standard lexer yields in front of the character `next`. -/
def Standard.Yields (canonical : Bool) (kind : Kind) (cs : List Char) (next : Option Char) :
    Standard → Prop
  | token .whitespace => kind = .space ∧ IsRun isBlank cs next
  | token .newline => kind = .newline ∧
      (cs = ['\n'] ∨ cs = ['\r', '\n'] ∨ cs = ['\r'] ∧ next ≠ some '\n')
  | token .address =>
    kind = .address ∧ Address.IsAddress canonical cs ∧ Address.Ends next ∨
      kind = .error ∧ IsRun CharClass.inWord cs next ∧
        ∀ front rest, cs = front ++ rest → Address.IsAddress canonical front →
          ∃ d ∈ rest.head?, d.isDigit = true ∨ d = '.'
  | token .domainName => IsRun CharClass.inWord cs next ∧
      (kind = .hostname ∧ DomainName.IsName cs ∨ kind = .error ∧ ¬DomainName.IsName cs)
  | unknown => kind = .error ∧ IsRun (fun c => !beginsToken c) cs next
  | _ => False

/-! ## The first character -/

/-- The state for a character, by the class of the character. -/
theorem stateFor_cases (c : Char) :
    (isBlank c = true ∧ Lexer.stateFor c = .token .whitespace) ∨
      ((c = '\r' ∨ c = '\n') ∧ Lexer.stateFor c = .token .newline) ∨
      (c.isDigit = true ∧ Lexer.stateFor c = .token .address) ∨
      (c.isAlpha = true ∧ Lexer.stateFor c = .token .domainName) ∨
      (beginsToken c = false ∧ Lexer.stateFor c = .unknown) := by
  rw [Lexer.stateFor]
  split
  · next hc => exact .inl ⟨hc, rfl⟩
  split
  · next hc =>
    refine .inr (.inl ⟨?_, rfl⟩)
    simpa [CharClass.has] using hc
  split
  · next hc => exact .inr (.inr (.inl ⟨hc, rfl⟩))
  split
  · next hc => exact .inr (.inr (.inr (.inl ⟨hc, rfl⟩)))
  · refine .inr (.inr (.inr (.inr ⟨?_, rfl⟩)))
    simp_all [beginsToken, CharClass.has, Char.isAlphanum]

/-- No character leads back to `dispatch`. -/
theorem stateFor_ne_dispatch (c : Char) : Lexer.stateFor c ≠ .dispatch := by
  rcases stateFor_cases c with ⟨-, hq⟩ | ⟨-, hq⟩ | ⟨-, hq⟩ | ⟨-, hq⟩ | ⟨-, hq⟩ <;> simp [hq]

theorem beginsToken_of_isDigit (hc : c.isDigit = true) : beginsToken c = true := by
  simp [beginsToken, CharClass.has, Char.isAlphanum, hc]

theorem beginsToken_of_isAlpha (hc : c.isAlpha = true) : beginsToken c = true := by
  simp [beginsToken, CharClass.has, Char.isAlphanum, hc]

theorem ascii_of_beginsToken (hc : beginsToken c = true) : c.val < 0x80 := by
  simp only [beginsToken, CharClass.has, Bool.or_eq_true, decide_eq_true_eq] at hc
  rcases hc with (((rfl | rfl) | (rfl | rfl)) | hc)
  · decide
  · decide
  · decide
  · decide
  · exact DomainName.ascii_of_inWord
      (DomainName.inWord_of_inLabel (DomainName.inLabel_of_isAlphanum hc))

theorem isAlpha_eq_false_of_isDigit (hc : c.isDigit = true) : c.isAlpha = false := by
  obtain ⟨hlow, hhigh⟩ := Char.isDigit_iff_toNat.1 hc
  have hall : ∀ n < 58, 48 ≤ n → (Char.ofNat n).isAlpha = false := by decide
  have hnat := hall c.toNat (Nat.lt_succ_of_le hhigh) hlow
  rwa [Char.ofNat_toNat] at hnat

theorem eq_of_isBlank (hc : isBlank c = true) : c = ' ' ∨ c = '\t' := by
  simpa [isBlank, CharClass.has] using hc

theorem stateFor_of_isBlank (hc : isBlank c = true) :
    Lexer.stateFor c = .token .whitespace := by
  rcases eq_of_isBlank hc with rfl | rfl <;> rfl

theorem stateFor_of_isDigit (hc : c.isDigit = true) : Lexer.stateFor c = .token .address := by
  rcases stateFor_cases c with ⟨hb, -⟩ | ⟨rfl | rfl, -⟩ | ⟨-, hq⟩ | ⟨ha, -⟩ | ⟨hn, -⟩
  · rcases eq_of_isBlank hb with rfl | rfl <;> exact absurd hc (by decide)
  · exact absurd hc (by decide)
  · exact absurd hc (by decide)
  · exact hq
  · simp [isAlpha_eq_false_of_isDigit hc] at ha
  · simp [beginsToken_of_isDigit hc] at hn

theorem stateFor_of_isAlpha (hc : c.isAlpha = true) : Lexer.stateFor c = .token .domainName := by
  rcases stateFor_cases c with ⟨hb, -⟩ | ⟨rfl | rfl, -⟩ | ⟨hd, -⟩ | ⟨-, hq⟩ | ⟨hn, -⟩
  · rcases eq_of_isBlank hb with rfl | rfl <;> exact absurd hc (by decide)
  · exact absurd hc (by decide)
  · exact absurd hc (by decide)
  · simp [isAlpha_eq_false_of_isDigit hd] at hc
  · exact hq
  · simp [beginsToken_of_isAlpha hc] at hn

theorem stateFor_of_not_beginsToken (hc : beginsToken c = false) :
    Lexer.stateFor c = .unknown := by
  rcases stateFor_cases c with ⟨hb, -⟩ | ⟨rfl | rfl, -⟩ | ⟨hd, -⟩ | ⟨ha, -⟩ | ⟨-, hq⟩
  · rcases eq_of_isBlank hb with rfl | rfl <;> exact absurd hc (by decide)
  · exact absurd hc (by decide)
  · exact absurd hc (by decide)
  · simp [beginsToken_of_isDigit hd] at hc
  · simp [beginsToken_of_isAlpha ha] at hc
  · exact hq

/-- A lexeme is what the state for its first character yields. -/
theorem lexeme_iff : Lexeme canonical kind cs next ↔
    ∃ c ∈ cs.head?, (Lexer.stateFor c).Yields canonical kind cs next := by
  constructor
  · intro h
    cases h with
    | @space cs next nonempty run =>
      obtain ⟨c, cs, rfl⟩ := List.exists_cons_of_ne_nil nonempty
      refine ⟨c, rfl, ?_⟩
      rw [stateFor_of_isBlank (run.1 c List.mem_cons_self)]
      exact ⟨rfl, run⟩
    | lineFeed => exact ⟨'\n', rfl, rfl, .inl rfl⟩
    | carriageReturn alone => exact ⟨'\r', rfl, rfl, .inr (.inr ⟨rfl, alone⟩)⟩
    | lineEnding => exact ⟨'\r', rfl, rfl, .inr (.inl rfl)⟩
    | address address ends =>
      obtain ⟨c, hc, hdigit⟩ := Address.Joined.head?_eq address
      refine ⟨c, hc, ?_⟩
      rw [stateFor_of_isDigit hdigit]
      exact .inl ⟨rfl, address, ends⟩
    | @hostname c cs next letter run name =>
      refine ⟨c, rfl, ?_⟩
      rw [stateFor_of_isAlpha letter]
      exact ⟨run, .inl ⟨rfl, name⟩⟩
    | @noName c cs next letter run noName =>
      refine ⟨c, rfl, ?_⟩
      rw [stateFor_of_isAlpha letter]
      exact ⟨run, .inr ⟨rfl, noName⟩⟩
    | @noAddress c cs next digit run noAddress =>
      refine ⟨c, rfl, ?_⟩
      rw [stateFor_of_isDigit digit]
      exact .inr ⟨rfl, run, noAddress⟩
    | @unknown cs next nonempty run =>
      obtain ⟨c, cs, rfl⟩ := List.exists_cons_of_ne_nil nonempty
      refine ⟨c, rfl, ?_⟩
      rw [stateFor_of_not_beginsToken (by simpa using run.1 c List.mem_cons_self)]
      exact ⟨rfl, run⟩
  · rintro ⟨c, hc, h⟩
    obtain ⟨cs, rfl⟩ := List.head?_eq_some_iff.1 hc
    rcases stateFor_cases c with ⟨-, hq⟩ | ⟨-, hq⟩ | ⟨hdigit, hq⟩ | ⟨hletter, hq⟩ | ⟨-, hq⟩
    · rw [hq] at h
      obtain ⟨rfl, run⟩ := h
      exact .space (by simp) run
    · rw [hq] at h
      obtain ⟨rfl, hcs | hcs | ⟨hcs, alone⟩⟩ := h
      · exact hcs ▸ .lineFeed
      · exact hcs ▸ .lineEnding
      · exact hcs ▸ .carriageReturn alone
    · rw [hq] at h
      rcases h with ⟨rfl, address, ends⟩ | ⟨rfl, run, noAddress⟩
      · exact .address address ends
      · exact .noAddress hdigit run noAddress
    · rw [hq] at h
      obtain ⟨run, ⟨rfl, name⟩ | ⟨rfl, noName⟩⟩ := h
      · exact .hostname hletter run name
      · exact .noName hletter run noName
    · rw [hq] at h
      obtain ⟨rfl, run⟩ := h
      exact .unknown (by simp) run

/-! ## Sorts of lexemes -/

/-- A lexeme is layout, or lies in a word, or begins no token. -/
theorem Lexeme.sorts (h : Lexeme canonical kind cs next) :
    (kind.isLayout = true ∧ ∀ c ∈ cs, c = ' ' ∨ c = '\t' ∨ c = '\r' ∨ c = '\n') ∨
      (kind.isLayout = false ∧ ∀ c ∈ cs, CharClass.inWord c = true) ∨
      kind = .error ∧ IsRun (fun c => !beginsToken c) cs next := by
  cases h with
  | space nonempty run =>
    refine .inl ⟨rfl, fun c hc => ?_⟩
    rcases eq_of_isBlank (run.1 c hc) with rfl | rfl <;> simp
  | lineFeed => exact .inl ⟨rfl, by simp⟩
  | carriageReturn alone => exact .inl ⟨rfl, by simp⟩
  | lineEnding => exact .inl ⟨rfl, by simp⟩
  | address address ends => exact .inr (.inl ⟨rfl, address.inWord⟩)
  | hostname letter run name => exact .inr (.inl ⟨rfl, run.1⟩)
  | noName letter run noName => exact .inr (.inl ⟨rfl, run.1⟩)
  | noAddress digit run noAddress => exact .inr (.inl ⟨rfl, run.1⟩)
  | unknown nonempty run => exact .inr (.inr ⟨rfl, run⟩)

/-- Other characters than those of ASCII belong only to runs that begin no token. -/
theorem Lexeme.ascii_or (h : Lexeme canonical kind cs next) :
    (∀ c ∈ cs, c.val < 0x80) ∨ kind = .error ∧ IsRun (fun c => !beginsToken c) cs next := by
  rcases h.sorts with ⟨-, hcs⟩ | ⟨-, hcs⟩ | hunknown
  · refine .inl fun c hc => ?_
    rcases hcs c hc with rfl | rfl | rfl | rfl <;> decide
  · exact .inl fun c hc => DomainName.ascii_of_inWord (hcs c hc)
  · exact .inr hunknown

/-! ## Unique cutting -/

theorem isRun_unique {p : Char → Bool} (h : IsRun p cs rest.head?) (h' : IsRun p cs' rest'.head?)
    (heq : cs ++ rest = cs' ++ rest') : cs = cs' := by
  rw [← h.takeWhile_eq, heq, h'.takeWhile_eq]

/-- An address at the beginning of a word is the lexeme there. -/
theorem not_isAddress_of_error (h : Address.IsAddress canonical cs)
    (hends : Address.Ends rest.head?) (hrun : IsRun CharClass.inWord cs' rest'.head?)
    (heq : cs ++ rest = cs' ++ rest')
    (hnone : ∀ front rest, cs' = front ++ rest → Address.IsAddress canonical front →
      ∃ d ∈ rest.head?, d.isDigit = true ∨ d = '.') : False := by
  rcases List.append_eq_append_iff.1 heq with ⟨more, rfl, rfl⟩ | ⟨more, rfl, rfl⟩
  · obtain ⟨d, hd, hdue⟩ := hnone cs more rfl h
    obtain ⟨more, rfl⟩ := List.head?_eq_some_iff.1 hd
    obtain ⟨hdigit, hpoint⟩ := hends d rfl
    simp [hdigit, hpoint] at hdue
  · cases more with
    | nil =>
      obtain ⟨d, hd, -⟩ := hnone cs' [] (by simp) (by simpa using h)
      simp at hd
    | cons d more =>
      -- The address would go on behind the word.
      have hword := Address.Joined.inWord h d (by simp)
      rw [hrun.2 d rfl] at hword
      simp at hword

/-- There is at most one lexeme at the beginning of a text. -/
theorem Lexeme.unique (h : Lexeme canonical kind cs rest.head?)
    (h' : Lexeme canonical kind' cs' rest'.head?) (heq : cs ++ rest = cs' ++ rest') :
    kind = kind' ∧ cs = cs' := by
  obtain ⟨c, hc, hyields⟩ := lexeme_iff.1 h
  obtain ⟨c', hc', hyields'⟩ := lexeme_iff.1 h'
  obtain rfl : c = c' := by
    obtain ⟨tail, rfl⟩ := List.head?_eq_some_iff.1 hc
    obtain ⟨tail', rfl⟩ := List.head?_eq_some_iff.1 hc'
    exact (List.cons.inj heq).1
  -- Both are what the same state yields. A run or a word is all there is of it; line endings
  -- and addresses differ by what comes behind them.
  rcases stateFor_cases c with ⟨-, hq⟩ | ⟨-, hq⟩ | ⟨-, hq⟩ | ⟨-, hq⟩ | ⟨-, hq⟩
  · rw [hq] at hyields hyields'
    exact ⟨hyields.1.trans hyields'.1.symm, isRun_unique hyields.2 hyields'.2 heq⟩
  · rw [hq] at hyields hyields'
    obtain ⟨hkind, hcs⟩ := hyields
    obtain ⟨hkind', hcs'⟩ := hyields'
    refine ⟨hkind.trans hkind'.symm, ?_⟩
    rcases hcs with rfl | rfl | ⟨rfl, halone⟩
    · rcases hcs' with rfl | rfl | ⟨rfl, -⟩
      · rfl
      · simp at heq
      · simp at heq
    · rcases hcs' with rfl | rfl | ⟨rfl, halone'⟩
      · simp at heq
      · rfl
      · exact absurd (congrArg List.head? (List.cons.inj heq).2).symm halone'
    · rcases hcs' with rfl | rfl | ⟨rfl, -⟩
      · simp at heq
      · exact absurd (congrArg List.head? (List.cons.inj heq).2) halone
      · rfl
  · rw [hq] at hyields hyields'
    rcases hyields with ⟨rfl, haddress, hends⟩ | ⟨rfl, hrun, hnone⟩
    · rcases hyields' with ⟨rfl, haddress', hends'⟩ | ⟨rfl, hrun', hnone'⟩
      · exact ⟨rfl, haddress.unique haddress' (fun c hc => (hends c hc).1)
          (fun c hc => (hends' c hc).1) heq⟩
      · exact (not_isAddress_of_error haddress hends hrun' heq hnone').elim
    · rcases hyields' with ⟨rfl, haddress', hends'⟩ | ⟨rfl, hrun', hnone'⟩
      · exact (not_isAddress_of_error haddress' hends' hrun heq.symm hnone).elim
      · exact ⟨rfl, isRun_unique hrun hrun' heq⟩
  · rw [hq] at hyields hyields'
    obtain ⟨hrun, hname⟩ := hyields
    obtain ⟨hrun', hname'⟩ := hyields'
    obtain rfl := isRun_unique hrun hrun' heq
    refine ⟨?_, rfl⟩
    rcases hname with ⟨rfl, hname⟩ | ⟨rfl, hname⟩
    · rcases hname' with ⟨rfl, -⟩ | ⟨-, hnoName⟩
      · rfl
      · exact absurd hname hnoName
    · rcases hname' with ⟨-, hname'⟩ | ⟨rfl, -⟩
      · exact absurd hname' hname
      · rfl
  · rw [hq] at hyields hyields'
    exact ⟨hyields.1.trans hyields'.1.symm, isRun_unique hyields.2 hyields'.2 heq⟩

/-! ## Segments -/

/-- The units of a text are cut into lexemes. -/
inductive Segments (canonical : Bool) : List (Char × Nat) → List (Kind × List (Char × Nat)) → Prop
  | nil : Segments canonical [] []
  | cons {kind : Kind} {us rest : List (Char × Nat)} {segs : List (Kind × List (Char × Nat))}
      (lexeme : Lexeme canonical kind (us.map Prod.fst) (rest.head?.map Prod.fst))
      (segments : Segments canonical rest segs) :
      Segments canonical (us ++ rest) ((kind, us) :: segs)

variable {us vs : List (Char × Nat)} {segs segs' : List (Kind × List (Char × Nat))}

theorem Lexeme.ne_nil (h : Lexeme canonical kind cs next) : cs ≠ [] := by
  obtain ⟨c, hc, -⟩ := lexeme_iff.1 h
  rintro rfl
  simp at hc

theorem Lexeme.units_ne_nil (h : Lexeme canonical kind (us.map Prod.fst) next) : us ≠ [] :=
  fun hus => h.ne_nil (by rw [hus]; rfl)

/-- A text that begins with a lexeme is cut behind it. -/
theorem Segments.eq_cons {rest : List (Char × Nat)} (h : Segments canonical (us ++ rest) segs)
    (hlexeme : Lexeme canonical kind (us.map Prod.fst) (rest.head?.map Prod.fst)) :
    ∃ segs', segs = (kind, us) :: segs' ∧ Segments canonical rest segs' := by
  generalize hall : us ++ rest = all at h
  cases h with
  | nil => exact absurd (List.append_eq_nil_iff.1 hall).1 hlexeme.units_ne_nil
  | @cons kind' us' rest' segs' lexeme segments =>
    rw [← List.head?_map] at hlexeme lexeme
    have hchars := congrArg (List.map Prod.fst) hall
    rw [List.map_append, List.map_append] at hchars
    obtain ⟨rfl, hcs⟩ := hlexeme.unique lexeme hchars
    have hlength := congrArg List.length hcs
    rw [List.length_map, List.length_map] at hlength
    obtain ⟨rfl, rfl⟩ := List.append_inj hall hlength
    exact ⟨segs', rfl, segments⟩

/-- There is at most one way to cut a text. -/
theorem Segments.unique (h : Segments canonical us segs) (h' : Segments canonical us segs') :
    segs = segs' := by
  induction h generalizing segs' with
  | nil =>
    generalize hus : ([] : List (Char × Nat)) = us at h'
    cases h' with
    | nil => rfl
    | cons lexeme segments =>
      exact absurd (List.append_eq_nil_iff.1 hus.symm).1 lexeme.units_ne_nil
  | cons lexeme segments ih =>
    obtain ⟨segs'', rfl, h''⟩ := h'.eq_cons lexeme
    rw [ih h'']

/-- A lexeme that ends with a line feed is one whatever follows. -/
theorem Lexeme.of_lineFeed (h : Lexeme canonical kind cs next) (hend : cs.getLast? = some '\n')
    (next' : Option Char) : Lexeme canonical kind cs next' := by
  have hmem := List.mem_of_getLast? hend
  cases h with
  | space nonempty run => exact absurd (run.1 _ hmem) (by decide)
  | lineFeed => exact .lineFeed
  | carriageReturn alone => simp at hend
  | lineEnding => exact .lineEnding
  | address address ends => exact absurd (address.inWord _ hmem) (by decide)
  | hostname letter run name => exact absurd (run.1 _ hmem) (by decide)
  | noName letter run noName => exact absurd (run.1 _ hmem) (by decide)
  | noAddress digit run noAddress => exact absurd (run.1 _ hmem) (by decide)
  | unknown nonempty run => exact absurd (run.1 _ hmem) (by decide)

/-- A text that ends with a line feed is cut as if nothing followed. -/
theorem Segments.append (h : Segments canonical us segs)
    (hend : ∀ u ∈ us.getLast?, u.1 = '\n') (h' : Segments canonical vs segs') :
    Segments canonical (us ++ vs) (segs ++ segs') := by
  induction h with
  | nil => exact h'
  | @cons kind us rest segs lexeme segments ih =>
    rw [List.append_assoc, List.cons_append]
    cases rest with
    | nil =>
      -- The last lexeme ends with the line feed.
      rw [List.append_nil] at hend
      have hlast := List.getLast?_eq_some_getLast lexeme.units_ne_nil
      refine .cons (lexeme.of_lineFeed ?_ _) (ih (by simp))
      rw [List.getLast?_map, hlast, Option.map_some, hend _ hlast]
    | cons u rest =>
      refine .cons lexeme (ih fun v hv => hend v ?_)
      rw [List.getLast?_append, Option.mem_def.1 hv]
      rfl

end StateLexer
