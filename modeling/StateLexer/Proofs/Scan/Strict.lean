import StateLexer.Proofs.Scan.Failure

/-!
# Strict scans

A strict scan breaks off at the first error token, in the middle of what the producer is
doing. What it tells the consumer is nevertheless said by the unbroken scan alone: the
first error token of that scan, wherever it would have gone from there, and the same as
a scan that is not strict if there is none.

There is one exception. Before it reports the token, a strict scan waits for the producer,
and that may stay in a call for ever. If nothing limits the time, the token is not reported
(`firstError_unreported`).

* `InvalidToken.message_ofToken`: the report begins with the location in words, although
  it is put together in another way, and has the colons at its end stripped;
* `reportsFirst_scan`, `scan_strict_eq`: what a strict scan answers if there is an error
  token, and if there is none;
* `scan_of_firstError_of_limit`, `scan_of_firstError_of_goes_on`: where it always reports the
  first error token;
* `strict_scan`: both answers, with what the report says.
-/

namespace StateLexer

variable {n : Nat} {lexer : Lexer n} {settings : Settings} {input : ByteArray}

/-! ## The report of an error token -/

/-- A location in words ends with its column. -/
theorem Location.exists_text_eq (l : Location) : ∃ front, l.text = front ++ toString l.column := by
  rw [Location.text]
  split
  · exact ⟨_, rfl⟩
  · exact ⟨_, rfl⟩
  · exact ⟨_, (String.append_assoc ..).symm⟩

/-- Columns count from one. -/
theorem locate_column_pos (input : ByteArray) (offset : Int) (file : Option String) :
    0 < (locate input offset file).column := by
  simp only [locate]
  omega

namespace InvalidToken

/-- A number does not end with a colon, so the one behind it is the only one that is dropped. -/
theorem dropColons_number (text : String) (number : Nat) :
    dropColons (text ++ toString number ++ ":") = text ++ toString number := by
  cases hlast : (Nat.toDigits 10 number).reverse with
  | nil => exact absurd (List.reverse_eq_nil_iff.1 hlast) Nat.toDigits_ne_nil
  | cons c rest =>
    have hmem : c ∈ Nat.toDigits 10 number := by
      rw [← List.mem_reverse, hlast]
      exact List.mem_cons_self
    have hdigit := Nat.isDigit_of_mem_toDigits (by decide) (by decide) hmem
    have hcolon : c ≠ ':' := by
      rintro rfl
      exact absurd hdigit (by decide)
    have hdrop : ((text ++ toString number ++ ":").toList.reverse.dropWhile (· = ':')) =
        (text ++ toString number).toList.reverse := by
      simp [hlast, hcolon]
    rw [dropColons, hdrop, List.reverse_reverse, String.ofList_toList]

/-- The place of an error token is its location in words, with a colon behind it. -/
theorem place_ofToken (input : ByteArray) (file : Option String) (t : Token) :
    (ofToken input file t).place = (locate input t.pos file).text ++ ":" := by
  simp only [place, ofToken, Location.text, locate]
  split <;> simp [String.append_assoc]

/-- Dropping the colons at its end makes the place of an error token its location. -/
theorem dropColons_place (input : ByteArray) (file : Option String) (t : Token) :
    dropColons (ofToken input file t).place = (locate input t.pos file).text := by
  obtain ⟨front, htext⟩ := Location.exists_text_eq (locate input t.pos file)
  obtain ⟨column, hcolumn⟩ := Int.eq_ofNat_of_zero_le (locate_column_pos input t.pos file).le
  rw [hcolumn] at htext
  rw [place_ofToken, htext]
  exact dropColons_number front column

theorem message_ofToken (input : ByteArray) (file : Option String) (t : Token) :
    (ofToken input file t).message = (locate input t.pos file).text ++ " invalid token " ++
      Text.quote t.text ++ " at offset " ++ toString t.pos := by
  have hplace : (ofToken input file t).place ≠ "" := by
    rw [place_ofToken]
    simp
  rw [message, if_neg hplace, dropColons_place]
  simp only [ofToken, String.append_assoc]
  rfl

end InvalidToken

/-! ## The first error token -/

/-- The token of the unbroken scan with index `k` is an error token, and none before it is. -/
structure Lexer.FirstError (lexer : Lexer n) (settings : Settings) (input : ByteArray) (k : Nat)
    (t : Token) : Prop where
  emits : lexer.Emits settings input k t
  kind_eq : t.kind = .error
  first : ∀ i < k, ∀ t', lexer.Emits settings input i t' → t'.kind ≠ .error

/-- The unbroken scan leaves every call behind its token with index `k`, the one included in
    which the token is emitted: it stays in none of them for ever without another token. -/
def Lexer.Leaves (lexer : Lexer n) (settings : Settings) (input : ByteArray) (k : Nat) : Prop :=
  ∀ ts, lexer.StaysInCall settings input ts → ts.length ≠ k + 1

/-- A scan that ends leaves every call, and one that has another token leaves those behind the
    one before. -/
theorem Lexer.leaves_of_goes_on {k : Nat}
    (h : (∃ ts failure, lexer.EndsWith settings input ts failure) ∨
      ∃ t, lexer.Emits settings input (k + 1) t) : lexer.Leaves settings input k := by
  intro ts hstays hlength
  rcases h with ⟨ts', failure, hend⟩ | ⟨t, hemits⟩
  · exact hstays.fallsSilent.not_endsWith hend
  · have hi := hstays.fallsSilent.emits_iff.1 hemits
    rw [← hlength, List.getElem?_eq_none (Nat.le_refl _)] at hi
    simp at hi

/-- An error token behind emitted tokens that are none is the first. -/
theorem Lexer.FirstError.eq_of_emits {k : Nat} {t t' : Token} {ts : List Token}
    (h : lexer.FirstError settings input k t) (hvalid : ∀ x ∈ ts, x.kind ≠ .error)
    (hkind : t'.kind = .error)
    (hemits : ∀ i x, (ts ++ [t'])[i]? = some x → lexer.Emits settings input i x) :
    ts.length = k ∧ t' = t := by
  have hlast := hemits ts.length t' List.getElem?_concat_length
  rcases Nat.lt_trichotomy ts.length k with hlt | heq | hgt
  · exact absurd hkind (h.first _ hlt t' hlast)
  · exact ⟨heq, hlast.unique (heq ▸ h.emits)⟩
  · -- The first error token would be one of those in front.
    have hk := hemits k ts[k] (by rw [List.getElem?_append_left hgt, List.getElem?_eq_getElem hgt])
    have hget := hk.unique h.emits
    exact absurd h.kind_eq (hget ▸ hvalid _ (List.getElem_mem hgt))

/-- What a strict scan answers that has a first error token: it reports the token, whatever
    comes behind it, or it waits for a producer that stays in a call, without a limit to the
    time. -/
inductive ReportsFirst (lexer : Lexer n) (settings : Settings) (file : Option String)
    (input : ByteArray) (k : Nat) (t : Token) : Reply (List Token) → Prop
  | reported (leaves : settings.joinTimeout = none → lexer.Leaves settings input k) :
      ReportsFirst lexer settings file input k t (.error (.invalidToken (.ofToken input file t)))
  | waits (limit_eq : settings.joinTimeout = none) (stays : ¬lexer.Leaves settings input k) :
      ReportsFirst lexer settings file input k t .never

theorem reportsFirst_scan {k : Nat} {t : Token} (h : lexer.FirstError settings input k t)
    (file : Option String) :
    ReportsFirst lexer settings file input k t (lexer.scan settings true file input).1 := by
  have hscans := scans lexer settings true file input
  have habsurd {ts : List Token} {failure : Option Fault} (hvalid : ∀ x ∈ ts, x.kind ≠ .error)
      (hend : lexer.EndsWith settings input ts failure) : False :=
    hvalid t (List.mem_of_getElem? (hend.emits_iff.1 h.emits)) h.kind_eq
  generalize lexer.scan settings true file input = scan at *
  cases hscans with
  | clean taken_eq valid ends => exact (habsurd (valid rfl) ends).elim
  | failed taken_eq valid ends => exact (habsurd (valid rfl) ends).elim
  | @invalid ts x s taken_eq valid strict_eq kind_eq emits leaves =>
    obtain ⟨hlength, rfl⟩ := h.eq_of_emits valid kind_eq emits
    refine .reported fun hlimit ts' hstays hlength' => leaves hlimit ?_
    -- The tokens up to a call that it stays in would be those that have been taken.
    rwa [hstays.fallsSilent.eq_of_emits (by simp [hlength, hlength']) emits]
  | never endless valid => exact absurd h.kind_eq (valid rfl k t h.emits)
  | waits valid strict_eq kind_eq limit_eq stays =>
    obtain ⟨rfl, -⟩ := h.eq_of_emits valid kind_eq fun i x hi => stays.fallsSilent.emits_iff.2 hi
    exact .waits limit_eq fun hleaves => absurd (by simp) (hleaves _ stays)

/-- A strict scan reports the first error token, if it does not have to wait for ever. -/
theorem scan_of_firstError {k : Nat} {t : Token} (h : lexer.FirstError settings input k t)
    (hleaves : settings.joinTimeout = none → lexer.Leaves settings input k)
    (file : Option String) : (lexer.scan settings true file input).1 =
      .error (.invalidToken (.ofToken input file t)) := by
  have hreports := reportsFirst_scan h file
  generalize (lexer.scan settings true file input).1 = reply at *
  cases hreports with
  | reported => rfl
  | waits limit_eq stays => exact absurd (hleaves limit_eq) stays

/-- A strict scan that has to wait for ever reports nothing. -/
theorem scan_of_firstError_of_stays {k : Nat} {t : Token}
    (h : lexer.FirstError settings input k t) (hlimit : settings.joinTimeout = none)
    (hstays : ¬lexer.Leaves settings input k) (file : Option String) :
    (lexer.scan settings true file input).1 = .never := by
  have hreports := reportsFirst_scan h file
  generalize (lexer.scan settings true file input).1 = reply at *
  cases hreports with
  | reported leaves => exact absurd (leaves hlimit) hstays
  | waits => rfl

/-- If the time to wait for the producer has a limit, a strict scan reports the first error
    token wherever the scan goes from there, and be it nowhere. -/
theorem scan_of_firstError_of_limit {k : Nat} {t : Token}
    (h : lexer.FirstError settings input k t) (hlimit : settings.joinTimeout ≠ none)
    (file : Option String) : (lexer.scan settings true file input).1 =
      .error (.invalidToken (.ofToken input file t)) :=
  scan_of_firstError h (fun hnone => absurd hnone hlimit) file

/-- If the scan finishes behind the first error token, or fails, or has another token, a strict
    scan reports the error token, also if the time to wait for the producer has no limit. -/
theorem scan_of_firstError_of_goes_on {k : Nat} {t : Token}
    (h : lexer.FirstError settings input k t)
    (hgoes : (∃ ts failure, lexer.EndsWith settings input ts failure) ∨
      ∃ t, lexer.Emits settings input (k + 1) t) (file : Option String) :
    (lexer.scan settings true file input).1 = .error (.invalidToken (.ofToken input file t)) :=
  scan_of_firstError h (fun _ => Lexer.leaves_of_goes_on hgoes) file

/-- Where no token is an error token, it makes no difference whether a scan is strict. -/
theorem scan_strict_eq (h : ∀ k t, lexer.Emits settings input k t → t.kind ≠ .error)
    (file file' : Option String) :
    (lexer.scan settings true file input).1 = (lexer.scan settings false file' input).1 := by
  have hloose := exhausts_scan lexer settings file' input
  have hscans := scans lexer settings true file input
  generalize (lexer.scan settings false file' input).1 = loose at *
  generalize lexer.scan settings true file input = strict at *
  cases hscans with
  | clean taken_eq valid ends =>
    cases hloose with
    | clean ends' => rw [(ends.unique ends').1]
    | failed ends' => simpa using (ends.unique ends').2
    | never endless => exact absurd ends (endless _ _)
  | failed taken_eq valid ends => rw [(hloose.eq_failed ends).1]
  | invalid taken_eq valid strict_eq kind_eq emits =>
    exact absurd kind_eq (h _ _ (emits _ _ List.getElem?_concat_length))
  | never endless valid =>
    cases hloose with
    | clean ends => exact absurd ends (endless _ _)
    | failed ends => exact absurd ends (endless _ _)
    | never => rfl
  | waits valid strict_eq kind_eq limit_eq stays =>
    exact absurd kind_eq (h _ _ (stays.fallsSilent.emits_iff.2 List.getElem?_concat_length))

/-! ## Both of them -/

/-- What a strict scan answers is said by the unbroken scan. If that has an error token, a
    strict scan reports the first of them, and where in the file it is, whether the unbroken
    scan would have ended behind it, or failed, or had more tokens; only where nothing limits
    the time to wait for the producer, the scan must not stay in a call behind it for ever. If
    the unbroken scan has no error token, a strict scan answers as one that is not strict. -/
theorem strict_scan (lexer : Lexer n) (settings : Settings) (input : ByteArray) :
    (∀ k t, lexer.FirstError settings input k t →
      (settings.joinTimeout = none → lexer.Leaves settings input k) → ∀ file,
      ∃ e, (lexer.scan settings true file input).1 = .error (.invalidToken e) ∧
        e.text = t.text ∧ e.offset = t.pos ∧ e.file = file ∧
        e.line = some (locate input t.pos none).line ∧
        e.column = some (locate input t.pos none).column ∧
        (ScanError.invalidToken e).message = (locate input t.pos file).text ++ " invalid token " ++
          Text.quote t.text ++ " at offset " ++ toString t.pos) ∧
      ((∀ k t, lexer.Emits settings input k t → t.kind ≠ .error) → ∀ file file',
        (lexer.scan settings true file input).1 = (lexer.scan settings false file' input).1) := by
  refine ⟨fun k t hfirst hleaves file => ?_, scan_strict_eq⟩
  exact ⟨.ofToken input file t, scan_of_firstError hfirst hleaves file, rfl, rfl, rfl, rfl, rfl,
    InvalidToken.message_ofToken input file t⟩

/-- A lexer whose only state emits an error token of one character, and then never stops
    accepting nothing at the end of the input. -/
def Lexer.lingering : Lexer 1 where
  grammar _ := .script
    { name := "lingering", steps := [.next, .emit .error, .acceptRun [""]], next := .halt }
  start := .custom ⟨0, Nat.zero_lt_one⟩
  home := .custom ⟨0, Nat.zero_lt_one⟩

/-- A strict scan does not report every first error token: if nothing limits the time to wait
    for the producer, it waits for one that stays in the call for ever. -/
theorem firstError_unreported :
    Lexer.lingering.FirstError { joinTimeout := none } "a".toUTF8 0 ⟨.error, 0, "a"⟩ ∧
      (Lexer.lingering.scan { joinTimeout := none } true none "a".toUTF8).1 = .never := by
  have htokens : (Lexer.lingering.unbroken { joinTimeout := none } "a".toUTF8 1).tokens =
      [⟨.error, 0, "a"⟩] := by decide +kernel
  have hfirst : Lexer.lingering.FirstError { joinTimeout := none } "a".toUTF8 0
      ⟨.error, 0, "a"⟩ :=
    ⟨⟨1, by rw [htokens]; rfl⟩, rfl, fun i hi => absurd hi (Nat.not_lt_zero i)⟩
  have hstays : Lexer.lingering.StaysInCall { joinTimeout := none } "a".toUTF8
      [⟨.error, 0, "a"⟩] := ⟨1, htokens, by with_unfolding_all rfl⟩
  exact ⟨hfirst, scan_of_firstError_of_stays hfirst rfl (fun hleaves => hleaves _ hstays rfl) none⟩

/-- A lexer whose only state takes one character as a token and the next one as an error,
    and does so again and again, also at the end of the input. -/
def Lexer.faltering : Lexer 1 where
  grammar _ := .script
    { name := "faltering", steps := [.next, .emit .space, .next, .emit .error], next := .home }
  start := .custom ⟨0, Nat.zero_lt_one⟩
  home := .custom ⟨0, Nat.zero_lt_one⟩

/-- A strict scan of a lexer that never ends reports the first error token, however long
    it would wait; and one that fails without an error token fails if it is strict, too. -/
theorem strict_scan_faltering :
    Lexer.faltering.FirstError { joinTimeout := none } "ab".toUTF8 1 ⟨.error, 1, "b"⟩ ∧
      Lexer.faltering.Leaves { joinTimeout := none } "ab".toUTF8 1 ∧
      (∃ e, (Lexer.faltering.scan { joinTimeout := none } true (some "log:") "ab".toUTF8).1 =
          .error (.invalidToken e) ∧
        (ScanError.invalidToken e).message = "log::1:2 invalid token 'b' at offset 1") ∧
      (∀ k t, (Lexer.breaking .value).Emits {} "ab".toUTF8 k t → t.kind ≠ .error) ∧
      ((Lexer.breaking .value).scan {} true none "ab".toUTF8).1 =
        ((Lexer.breaking .value).scan {} false none "ab".toUTF8).1 := by
  have htokens : (Lexer.faltering.unbroken { joinTimeout := none } "ab".toUTF8 2).tokens =
      [⟨.space, 0, "a"⟩, ⟨.error, 1, "b"⟩, ⟨.space, 2, ""⟩, ⟨.error, 2, ""⟩] := by decide +kernel
  have hemits {k : Nat} {t : Token} (h : ([⟨.space, 0, "a"⟩, ⟨.error, 1, "b"⟩, ⟨.space, 2, ""⟩,
      ⟨.error, 2, ""⟩] : List Token)[k]? = some t) :
      Lexer.faltering.Emits { joinTimeout := none } "ab".toUTF8 k t := ⟨2, htokens ▸ h⟩
  have hfirst : Lexer.faltering.FirstError { joinTimeout := none } "ab".toUTF8 1
      ⟨.error, 1, "b"⟩ := by
    refine ⟨hemits rfl, rfl, fun i hi t' ht' => ?_⟩
    obtain rfl : i = 0 := by omega
    rw [← Lexer.Emits.unique (hemits rfl) ht']
    decide
  have hleaves : Lexer.faltering.Leaves { joinTimeout := none } "ab".toUTF8 1 :=
    Lexer.leaves_of_goes_on (.inr ⟨_, hemits rfl⟩)
  have hvalid (k : Nat) (t : Token) (ht : (Lexer.breaking .value).Emits {} "ab".toUTF8 k t) :
      t.kind ≠ .error := by
    have hmem := List.mem_of_getElem? ((raisesAfter_breaking .value).endsWith.emits_iff.1 ht)
    rw [List.mem_singleton.1 hmem]
    decide
  obtain ⟨e, hscan, -, -, -, -, -, hmessage⟩ :=
    (strict_scan Lexer.faltering { joinTimeout := none } "ab".toUTF8).1 1 _ hfirst
      (fun _ => hleaves) (some "log:")
  refine ⟨hfirst, hleaves, ⟨e, hscan, ?_⟩, hvalid,
    (strict_scan (Lexer.breaking .value) {} "ab".toUTF8).2 hvalid none none⟩
  rw [hmessage]
  decide +kernel

end StateLexer
