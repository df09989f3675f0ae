import StateLexer.Proofs.Reader.Bytes
import StateLexer.Proofs.Recognizer.Address
import StateLexer.Proofs.Recognizer.Name
import StateLexer.Recognizer

/-!
# What the matchers accept

A matcher gives its verdict on whatever bytes it finds, also on such as encode no text, and
wherever it begins to read. Its verdict, and how far it reads, depend on these bytes alone
(`Reader.bytes`), since all that it looks for are ASCII characters.

* `Address.begins_iff`: bytes that begin with an address are read as one;
* `Address.recognizes_addresses`: an address is accepted where one begins, a word that begins
  with a digit is invalid where none does, and all else is rejected;
* `DomainName.recognizes_names`: a word that begins like a label is read as a whole, and is
  accepted where it is a name.
-/

namespace StateLexer

variable {canonical : Bool} {cs cs' : List Char} {r r' : Reader}

/-- The run gives the verdict, behind `length` bytes that it has read. -/
structure Run.Gives (run : Run Verdict) (r : Reader) (verdict : Verdict) (length : Nat) : Prop where
  outcome_eq : run.outcome = .done verdict
  input_eq : run.reader.input = r.input
  start_eq : run.reader.start = r.start
  pos_eq : run.reader.pos = r.pos + length

theorem asciiOnly_isDigit : AsciiOnly Char.isDigit :=
  fun _ => DomainName.ascii_of_isDigit

theorem asciiOnly_inWord : AsciiOnly CharClass.inWord :=
  fun _ => DomainName.ascii_of_inWord

/-- To read a flaw and what belongs to it is to find the input invalid. -/
theorem Matcher.gives_of_malformed {reading : Reading} {flaw : Flaw}
    (hflaw : reading = .malformed flaw) (hreads : r.Reads cs r')
    (hcs : ∀ c ∈ cs, c.val < 0x80) : (ofReading reading r').Gives r .invalid cs.length := by
  rw [hflaw]
  exact ⟨rfl, hreads.input_eq, hreads.start_eq, hreads.pos_eq hcs⟩

namespace Address

/-- The character goes on with an address, or with the word that an address is in. -/
def goesOn (c : Char) : Bool :=
  c.isDigit || c = '.'

/-- The bytes begin with the address, and it ends in front of the rest of them. -/
def Begins (canonical : Bool) (bytes : List UInt8) (cs : List Char) : Prop :=
  IsAddress canonical cs ∧
    ∃ after, bytes = cs.map Char.toUInt8 ++ after ∧ after.head?.any (Utf8.encodes goesOn) = false

theorem asciiOnly_goesOn : AsciiOnly goesOn := by
  intro c hc
  rcases Bool.or_eq_true_iff.1 hc with hdigit | hpoint
  · exact asciiOnly_isDigit c hdigit
  · rw [of_decide_eq_true hpoint]
    decide

theorem ends_iff {next : Option Char} : Ends next ↔ next.any goesOn = false := by
  rw [Option.any_eq_false]
  refine forall₂_congr fun c _ => ?_
  rw [goesOn, Bool.or_eq_false_iff, decide_eq_false_iff_not]

theorem ascii_of_isAddress (h : IsAddress canonical cs) : ∀ c ∈ cs, c.val < 0x80 :=
  fun c hc => asciiOnly_inWord c (h.inWord c hc)

/-- Bytes that begin with an address are those that can be read as one. -/
theorem begins_iff (h : r.start ≤ r.pos) : Begins canonical r.bytes cs ↔
    IsAddress canonical cs ∧ ∃ r', r.Reads cs r' ∧ Ends r'.ahead.head? := by
  refine and_congr_right fun haddress => ?_
  have hascii := ascii_of_isAddress haddress
  constructor
  · rintro ⟨after, hbytes, hafter⟩
    obtain ⟨r', hreads, rfl⟩ := Reader.exists_reads_of_bytes h hascii hbytes
    rw [Reader.any_head?_bytes asciiOnly_goesOn] at hafter
    exact ⟨r', hreads, ends_iff.2 hafter⟩
  · rintro ⟨r', hreads, hends⟩
    refine ⟨r'.bytes, hreads.bytes_eq hascii, ?_⟩
    rw [Reader.any_head?_bytes asciiOnly_goesOn]
    exact ends_iff.1 hends

theorem Begins.unique (h : r.start ≤ r.pos) (hcs : Begins canonical r.bytes cs)
    (hcs' : Begins canonical r.bytes cs') : cs = cs' := by
  obtain ⟨haddress, r₁, hreads, hends⟩ := (begins_iff h).1 hcs
  obtain ⟨haddress', r₂, hreads', hends'⟩ := (begins_iff h).1 hcs'
  exact haddress.unique haddress' (fun c hc => (hends c hc).1) (fun c hc => (hends' c hc).1)
    (hreads.ahead_eq.symm.trans hreads'.ahead_eq)

/-- An address begins with a digit. -/
theorem Begins.digit (h : r.start ≤ r.pos) (hcs : Begins canonical r.bytes cs) :
    r.bytes.head?.any (Utf8.encodes Char.isDigit) = true := by
  obtain ⟨haddress, r', hreads, -⟩ := (begins_iff h).1 hcs
  obtain ⟨c, hc, hdigit⟩ := haddress.head?_eq
  obtain ⟨rest, rfl⟩ := List.head?_eq_some_iff.1 hc
  rw [Reader.any_head?_bytes asciiOnly_isDigit, hreads.ahead_eq]
  exact hdigit

/-- The matcher of addresses rejects, accepts, or finds invalid what begins at the reader. -/
inductive Sorts (canonical : Bool) (r : Reader) (run : Run Verdict) : Prop
  | rejected (no_digit : r.bytes.head?.any (Utf8.encodes Char.isDigit) = false)
    (gives : run.Gives r .rejected 0)
  | accepted {cs : List Char} (begins : Begins canonical r.bytes cs)
    (gives : run.Gives r .accepted cs.length)
  | invalid (digit : r.bytes.head?.any (Utf8.encodes Char.isDigit) = true)
    (not_begins : ∀ cs, ¬Begins canonical r.bytes cs)
    (gives : run.Gives r .invalid (r.bytes.takeWhile (Utf8.encodes CharClass.inWord)).length)

theorem sorts_run (env : Env) (h : r.start ≤ r.pos) :
    Sorts env.settings.canonicalOctets r ((Matcher.token .address).run env r) := by
  have hhead := Reader.any_head?_bytes asciiOnly_isDigit r
  cases hdigit : r.ahead.head?.any Char.isDigit with
  | false =>
    obtain ⟨hpeek, hreads⟩ := Reader.reads_peek h
    have hread : read .plain env.settings.canonicalOctets r = (.rejected, r.peek.2) := by
      simp [read, hpeek, hdigit]
    refine .rejected (hhead.trans hdigit) ?_
    rw [Matcher.run_token, TokenClass.read, hread]
    exact ⟨rfl, hreads.input_eq, hreads.start_eq, hreads.pos_nil⟩
  | true =>
    rcases decides_read env.settings.canonicalOctets h hdigit with
      ⟨cs, hfst, hreads, haddress, hends⟩ | ⟨⟨flaw, hfst⟩, hreads, hnone⟩
    · refine .accepted ((begins_iff h).2 ⟨haddress, _, hreads, hends⟩) ?_
      rw [Matcher.run_token, TokenClass.read, hfst]
      exact ⟨rfl, hreads.input_eq, hreads.start_eq, hreads.pos_eq (ascii_of_isAddress haddress)⟩
    · refine .invalid (hhead.trans hdigit) (fun cs hcs => ?_) ?_
      · obtain ⟨haddress, r', hreads', hends⟩ := (begins_iff h).1 hcs
        exact hnone cs _ hreads'.ahead_eq haddress hends
      · rw [hreads.takeWhile_bytes asciiOnly_inWord, List.length_map, Matcher.run_token]
        exact Matcher.gives_of_malformed hfst hreads fun c hc =>
          asciiOnly_inWord c (hreads.isRun.1 c hc)

/-- The language of the matcher of addresses, at a reader. -/
structure Recognizes (canonical : Bool) (r : Reader) (run : Run Verdict) : Prop where
  /-- There always is a verdict. -/
  total : ∃ verdict length, run.Gives r verdict length
  /-- Rejected is what does not begin with a digit, and none of it is read. -/
  rejected_iff : run.outcome = .done .rejected ↔
    r.bytes.head?.any (Utf8.encodes Char.isDigit) = false
  pos_of_rejected : run.outcome = .done .rejected → run.reader.pos = r.pos
  /-- Accepted is what begins with an address, and just that is read. -/
  accepted_iff : run.outcome = .done .accepted ↔ ∃ cs, Begins canonical r.bytes cs
  pos_of_begins : ∀ cs, Begins canonical r.bytes cs → run.reader.pos = r.pos + cs.length
  /-- There is only one address to begin with. -/
  unique : ∀ cs cs', Begins canonical r.bytes cs → Begins canonical r.bytes cs' → cs = cs'
  /-- All else is invalid, and the whole word is read. -/
  invalid_iff : run.outcome = .done .invalid ↔
    run.outcome ≠ .done .rejected ∧ run.outcome ≠ .done .accepted
  pos_of_invalid : run.outcome = .done .invalid →
    run.reader.pos = r.pos + (r.bytes.takeWhile (Utf8.encodes CharClass.inWord)).length

/-- Wherever in an input a window begins, and whatever has been read before, the matcher
    of addresses recognizes exactly the addresses. -/
theorem recognizes_addresses (env : Env) (input : ByteArray) (p width : Nat) (canBackup : Bool) :
    Recognizes env.settings.canonicalOctets { input, pos := p, start := p, width, canBackup }
      ((Matcher.token .address).run env { input, pos := p, start := p, width, canBackup }) := by
  generalize hr : ({ input, pos := p, start := p, width, canBackup } : Reader) = r
  have hstart : r.start ≤ r.pos := by subst hr; exact Nat.le_refl p
  have hunique (cs cs' : List Char) (hcs : Begins env.settings.canonicalOctets r.bytes cs)
      (hcs' : Begins env.settings.canonicalOctets r.bytes cs') := hcs.unique hstart hcs'
  cases sorts_run env hstart with
  | rejected hnot hgives =>
    have hnone (cs : List Char) : ¬Begins env.settings.canonicalOctets r.bytes cs :=
      fun hcs => Bool.false_ne_true (hnot.symm.trans (hcs.digit hstart))
    exact {
      total := ⟨_, _, hgives⟩
      rejected_iff := by simp [hgives.outcome_eq, hnot]
      pos_of_rejected := fun _ => hgives.pos_eq
      accepted_iff := by simpa [hgives.outcome_eq] using hnone
      pos_of_begins := fun cs hcs => absurd hcs (hnone cs)
      unique := hunique
      invalid_iff := by simp [hgives.outcome_eq]
      pos_of_invalid := by simp [hgives.outcome_eq] }
  | accepted hcs hgives =>
    exact {
      total := ⟨_, _, hgives⟩
      rejected_iff := by simp [hgives.outcome_eq, hcs.digit hstart]
      pos_of_rejected := by simp [hgives.outcome_eq]
      accepted_iff := by simpa [hgives.outcome_eq] using ⟨_, hcs⟩
      pos_of_begins := fun cs' hcs' => by rw [hgives.pos_eq, hunique _ _ hcs hcs']
      unique := hunique
      invalid_iff := by simp [hgives.outcome_eq]
      pos_of_invalid := by simp [hgives.outcome_eq] }
  | invalid hdigit hnone hgives =>
    exact {
      total := ⟨_, _, hgives⟩
      rejected_iff := by simp [hgives.outcome_eq, hdigit]
      pos_of_rejected := by simp [hgives.outcome_eq]
      accepted_iff := by simpa [hgives.outcome_eq] using hnone
      pos_of_begins := fun cs hcs => absurd hcs (hnone cs)
      unique := hunique
      invalid_iff := by simp [hgives.outcome_eq]
      pos_of_invalid := fun _ => hgives.pos_eq }

end Address

namespace DomainName

theorem asciiOnly_inLabel : AsciiOnly CharClass.inLabel :=
  fun c hc => asciiOnly_inWord c (inWord_of_inLabel hc)

/-- The bytes of the word at the reader: all up to the first that encodes no character of
    a word. -/
def wordBytes (r : Reader) : List UInt8 :=
  r.bytes.takeWhile (Utf8.encodes CharClass.inWord)

/-- The bytes spell a name. -/
def Spelled (bytes : List UInt8) : Prop :=
  IsName (bytes.map Char.ofUInt8)

/-- A name begins with a letter or digit. -/
theorem IsName.head (h : IsName cs) : ∃ c ∈ cs.head?, c.isAlphanum = true := by
  rw [isName_iff] at h
  cases cs with
  | nil => simp [completes_nil] at h
  | cons c cs =>
    refine ⟨c, rfl, ?_⟩
    rw [← Bool.not_eq_false]
    exact fun hc => not_completes hc h

/-- A word that is a name begins with a character of a label. -/
theorem Spelled.inLabel (h : Spelled (wordBytes r)) :
    r.bytes.head?.any (Utf8.encodes CharClass.inLabel) = true := by
  obtain ⟨c, hc, halnum⟩ := IsName.head h
  rw [List.head?_map, wordBytes, List.head?_takeWhile] at hc
  obtain ⟨b, hb, rfl⟩ := Option.map_eq_some_iff.1 hc
  rw [(Option.filter_eq_some_iff.1 hb).1]
  exact inLabel_of_isAlphanum halnum

/-- The matcher of names rejects what begins at the reader, or else reads the whole word,
    and accepts it or finds it invalid. -/
inductive Sorts (r : Reader) (run : Run Verdict) : Prop
  | rejected (no_label : r.bytes.head?.any (Utf8.encodes CharClass.inLabel) = false)
    (gives : run.Gives r .rejected 0)
  | accepted (spelled : Spelled (wordBytes r))
    (gives : run.Gives r .accepted (wordBytes r).length)
  | invalid (label : r.bytes.head?.any (Utf8.encodes CharClass.inLabel) = true)
    (not_spelled : ¬Spelled (wordBytes r))
    (gives : run.Gives r .invalid (wordBytes r).length)

theorem sorts_run (env : Env) (h : r.start ≤ r.pos) :
    Sorts r ((Matcher.token .domainName).run env r) := by
  have hhead := Reader.any_head?_bytes asciiOnly_inLabel r
  cases hlabel : r.ahead.head?.any CharClass.inLabel with
  | false =>
    have hreads := (Reader.reads_peek h).2
    refine .rejected (hhead.trans hlabel) ?_
    rw [Matcher.run_token, TokenClass.read, read_of_not_inLabel h hlabel]
    exact ⟨rfl, hreads.input_eq, hreads.start_eq, hreads.pos_nil⟩
  | true =>
    obtain ⟨hreads, hdecides⟩ := decides_read h hlabel
    have hascii : ∀ c ∈ r.ahead.takeWhile CharClass.inWord, c.val < 0x80 :=
      fun c hc => asciiOnly_inWord c (hreads.isRun.1 c hc)
    have hbytes : wordBytes r = (r.ahead.takeWhile CharClass.inWord).map Char.toUInt8 :=
      hreads.takeWhile_bytes asciiOnly_inWord
    -- The characters of the word are those that its bytes encode.
    have hchars : (wordBytes r).map Char.ofUInt8 = r.ahead.takeWhile CharClass.inWord :=
      Reader.map_takeWhile_bytes asciiOnly_inWord h
    have hspelled : Spelled (wordBytes r) ↔ IsName (r.ahead.takeWhile CharClass.inWord) := by
      rw [Spelled, hchars]
    rcases hdecides with ⟨hfst, hname⟩ | ⟨⟨flaw, hfst⟩, hname⟩
    · refine .accepted (hspelled.2 hname) ?_
      rw [hbytes, List.length_map, Matcher.run_token, TokenClass.read, hfst]
      exact ⟨rfl, hreads.input_eq, hreads.start_eq, hreads.pos_eq hascii⟩
    · refine .invalid (hhead.trans hlabel) (mt hspelled.1 hname) ?_
      rw [hbytes, List.length_map, Matcher.run_token]
      exact Matcher.gives_of_malformed hfst hreads hascii

/-- The language of the matcher of names, at a reader. -/
structure Recognizes (r : Reader) (run : Run Verdict) : Prop where
  /-- There always is a verdict. -/
  total : ∃ verdict length, run.Gives r verdict length
  /-- Rejected is what does not begin with a character of a label, and none of it is read. -/
  rejected_iff : run.outcome = .done .rejected ↔
    r.bytes.head?.any (Utf8.encodes CharClass.inLabel) = false
  pos_of_rejected : run.outcome = .done .rejected → run.reader.pos = r.pos
  /-- Of all else, the whole word is read. -/
  pos_of_not_rejected : run.outcome ≠ .done .rejected →
    run.reader.pos = r.pos + (wordBytes r).length
  /-- Accepted is a word that is a name. -/
  accepted_iff : run.outcome = .done .accepted ↔ Spelled (wordBytes r)
  /-- All else is invalid. -/
  invalid_iff : run.outcome = .done .invalid ↔
    run.outcome ≠ .done .rejected ∧ ¬Spelled (wordBytes r)

/-- Wherever in an input a window begins, and whatever has been read before, the matcher
    of names recognizes exactly the words that are names. -/
theorem recognizes_names (env : Env) (input : ByteArray) (p width : Nat) (canBackup : Bool) :
    Recognizes { input, pos := p, start := p, width, canBackup }
      ((Matcher.token .domainName).run env { input, pos := p, start := p, width, canBackup }) := by
  generalize hr : ({ input, pos := p, start := p, width, canBackup } : Reader) = r
  have hstart : r.start ≤ r.pos := by subst hr; exact Nat.le_refl p
  cases sorts_run env hstart with
  | rejected hnot hgives =>
    have hnone : ¬Spelled (wordBytes r) :=
      fun hspelled => Bool.false_ne_true (hnot.symm.trans hspelled.inLabel)
    exact {
      total := ⟨_, _, hgives⟩
      rejected_iff := by simp [hgives.outcome_eq, hnot]
      pos_of_rejected := fun _ => hgives.pos_eq
      pos_of_not_rejected := fun h => absurd hgives.outcome_eq h
      accepted_iff := by simp [hgives.outcome_eq, hnone]
      invalid_iff := by simp [hgives.outcome_eq] }
  | accepted hspelled hgives =>
    exact {
      total := ⟨_, _, hgives⟩
      rejected_iff := by simp [hgives.outcome_eq, hspelled.inLabel]
      pos_of_rejected := by simp [hgives.outcome_eq]
      pos_of_not_rejected := fun _ => hgives.pos_eq
      accepted_iff := by simp [hgives.outcome_eq, hspelled]
      invalid_iff := by simp [hgives.outcome_eq, hspelled] }
  | invalid hlabel hnone hgives =>
    exact {
      total := ⟨_, _, hgives⟩
      rejected_iff := by simp [hgives.outcome_eq, hlabel]
      pos_of_rejected := by simp [hgives.outcome_eq]
      pos_of_not_rejected := fun _ => hgives.pos_eq
      accepted_iff := by simp [hgives.outcome_eq, hnone]
      invalid_iff := by simp [hgives.outcome_eq, hnone] }

end DomainName

end StateLexer
