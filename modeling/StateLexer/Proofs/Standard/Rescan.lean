import StateLexer.Proofs.Reader.Window
import StateLexer.Proofs.Standard.Tiling

/-!
# Tokens stand alone

What a token is depends on its own text only, and not on what follows it: a lexeme is also
one at the end of an input (`Lexeme.alone`). So a token whose text is scanned on its own is
found again, and nothing else (`rescan_token`). This includes runs of malformed bytes,
although their text, which is well-formed, is not what is in the input: it begins no token
either (`Lexeme.shown`).
-/

namespace StateLexer

open Reader (IsRun)

variable {canonical : Bool} {kind : Kind} {cs : List Char} {next : Option Char}
  {us rest : List (Char × Nat)} {bytes : ByteArray} {pos : Nat}

/-! ## Lexemes -/

theorem Reader.IsRun.alone {p : Char → Bool} (h : IsRun p cs next) : IsRun p cs none :=
  ⟨h.1, fun _ hc => absurd hc (Option.not_mem_none _)⟩

/-- A lexeme is one at the end of the input, too. -/
theorem Lexeme.alone (h : Lexeme canonical kind cs next) : Lexeme canonical kind cs none := by
  cases h with
  | space nonempty run => exact .space nonempty run.alone
  | lineFeed => exact .lineFeed
  | carriageReturn alone => exact .carriageReturn (by simp)
  | lineEnding => exact .lineEnding
  | address address ends => exact .address address fun _ hc => absurd hc (Option.not_mem_none _)
  | hostname letter run name => exact .hostname letter run.alone name
  | noName letter run noName => exact .noName letter run.alone noName
  | noAddress digit run noAddress => exact .noAddress digit run.alone noAddress
  | unknown nonempty run => exact .unknown nonempty run.alone

/-- What the text of a lexeme shows is a lexeme of the same kind. -/
theorem Lexeme.shown (h : Lexeme canonical kind (us.map Prod.fst) next)
    (hunits : Utf8.runes.unitsFrom bytes pos = us ++ rest) :
    Lexeme canonical kind (Utf8.text (bytes.extract pos (pos + Utf8.span us))).toList none := by
  rcases h.ascii_or with hascii | ⟨rfl, hrun⟩
  · have hus : ∀ u ∈ us, u.1 ≠ Utf8.replacement := fun u hu heq => by
      have hlt := hascii u.1 (List.mem_map_of_mem hu)
      rw [heq] at hlt
      exact absurd hlt (by decide)
    rw [Utf8.text_extract hunits hus, String.toList_ofList]
    exact h.alone
  · refine .unknown (Utf8.text_ne_nil ?_)
      ⟨fun c hc => ?_, fun _ hc => absurd hc (Option.not_mem_none _)⟩
    · obtain ⟨u, us, rfl⟩ := List.exists_cons_of_ne_nil h.units_ne_nil
      obtain ⟨hlt, rfl⟩ := Utf8.Decoding.unitsFrom_eq_cons hunits
      have hwidth := Utf8.runes.one_le_width bytes pos
      rw [ByteArray.size_extract, Utf8.span_cons]
      omega
    · have hnone := Utf8.forall_text (fun _ => ascii_of_beginsToken) hunits
        (fun u hu => by simpa using hrun.1 u.1 (List.mem_map_of_mem hu)) c hc
      simp [hnone]

/-! ## Tokens -/

/-- A lexeme that is scanned on its own is the only token. -/
theorem Lexeme.scan_eq {settings : Settings} {text : String}
    (h : Lexeme settings.canonicalOctets kind text.toList none) (file : Option String) :
    (Lexer.standard.scan settings false file text.toUTF8).1 =
      .value [{ kind, pos := 0, text },
        { kind := .endOfInput, pos := text.utf8ByteSize, text := "" }] := by
  obtain ⟨ts, hscan, htokenizes⟩ := tokenizes_scan settings file text
  have halone := @Tokenizes.cons settings.canonicalOctets 0 kind text.toList [] _ h .nil
  rw [List.append_nil, String.ofList_toList, Nat.zero_add] at halone
  rw [hscan, htokenizes.unique halone]
  rfl

/-- The text of a token, scanned on its own, yields the token and the end. -/
theorem rescan_token (settings : Settings) (file : Option String) (input : ByteArray) :
    ∃ ts, (Lexer.standard.scan settings false file input).1 = .value ts ∧
      ∀ t ∈ ts, t.kind ≠ .endOfInput →
        (Lexer.standard.scan settings false file t.text.toUTF8).1 =
          .value [{ kind := t.kind, pos := 0, text := t.text },
            { kind := .endOfInput, pos := t.text.utf8ByteSize, text := "" }] := by
  obtain ⟨segs, hsegments, hscan⟩ := scan_standard settings file input
  refine ⟨_, hscan, fun t ht hkind => ?_⟩
  obtain ⟨pos, us, rest, hunits, hlexeme, htext⟩ := hsegments.exists_lexeme rfl ht hkind
  refine Lexeme.scan_eq ?_ file
  rw [htext]
  exact hlexeme.shown hunits

/-- Two malformed bytes are shown as one character, which is scanned as such. -/
theorem rescan_token_malformed :
    let ts : List Token := [⟨.error, 0, "\uFFFD"⟩, ⟨.hostname, 2, "A"⟩, ⟨.endOfInput, 3, ""⟩]
    (Lexer.standard.scan {} false none ⟨#[0xF0, 0x9F, 0x41]⟩).1 = .value ts ∧
      (Lexer.standard.scan {} false none "\uFFFD".toUTF8).1 =
        .value [⟨.error, 0, "\uFFFD"⟩, ⟨.endOfInput, 3, ""⟩] := by
  intro ts
  have hscan : (Lexer.standard.scan {} false none ⟨#[0xF0, 0x9F, 0x41]⟩).1 = .value ts :=
    scan_of_endsWith none ⟨5, by decide +kernel, by decide +kernel⟩
  obtain ⟨ts', hscan', hall⟩ := rescan_token {} none ⟨#[0xF0, 0x9F, 0x41]⟩
  have hts : ts' = ts := Reply.value.inj (hscan'.symm.trans hscan)
  have hsize : ("\uFFFD".utf8ByteSize : Int) = 3 := by decide +kernel
  have halone := hall ⟨.error, 0, "\uFFFD"⟩ (hts ▸ List.mem_cons_self) (by decide)
  rw [hsize] at halone
  exact ⟨hscan, halone⟩

end StateLexer
