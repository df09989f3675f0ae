import Mathlib.Data.List.TakeWhile
import StateLexer.Proofs.Reader.Window
import StateLexer.Proofs.Recognizer.Exhausted
import StateLexer.Proofs.Recognizer.Label
import StateLexer.Proofs.Standard

/-!
# Names, label by label

A name that ends with a point can be recognized in two ways: as a whole, by the recognizer
that goes through its labels in a loop of its own (`Lexer.wholeName`), or label by label, by a
lexer whose only state is the recognizer of labels, which is called again behind every point
and ends the scan at the first flaw (`Lexer.labels`). Where a flaw is met, the two absorb
different spans; but both of them get by without one only if every label is sound.

* `completes_dotted`: a text of labels with their points is a name if they are sound;
* `calls_dotted`: the calls spell it with host names if they are;
* `labels_spell_names`: so the two agree, the limits on lengths apart.
-/

namespace StateLexer

variable {env : Env} {r r' : Reader} {l cs ds : List Char} {ls : List (List Char)} {t : Token}
  {ts : List Token}

/-! ## Labels with their points -/

namespace DomainName

/-- The labels, each with a point behind it. -/
def dotted (ls : List (List Char)) : List Char :=
  ls.flatMap (· ++ ['.'])

@[simp] theorem dotted_nil : dotted [] = [] := rfl

@[simp] theorem dotted_cons (l : List Char) (ls : List (List Char)) :
    dotted (l :: ls) = l ++ '.' :: dotted ls := by
  simp [dotted]

/-- What ends with a point consists of the labels in front of its points. -/
theorem exists_dotted (hcs : ∀ c ∈ cs, CharClass.inWord c = true)
    (hend : ∀ c ∈ cs.getLast?, c = '.') :
    ∃ ls, cs = dotted ls ∧ ∀ l ∈ ls, ∀ c ∈ l, CharClass.inLabel c = true := by
  induction cs with
  | nil => exact ⟨[], rfl, by simp⟩
  | cons c cs ih =>
    have hend' : ∀ d ∈ cs.getLast?, d = '.' := fun d hd =>
      hend d (by rw [List.getLast?_cons, Option.mem_def.1 hd]; rfl)
    obtain ⟨ls, rfl, hls⟩ := ih (fun d hd => hcs d (List.mem_cons_of_mem c hd)) hend'
    by_cases hc : c = '.'
    · exact ⟨[] :: ls, by simp [hc], by simpa using hls⟩
    · have hin : CharClass.inLabel c = true := by
        simpa [CharClass.inWord, hc] using hcs c List.mem_cons_self
      cases ls with
      | nil => exact absurd (hend c rfl) hc
      | cons l ls =>
        have hl := List.forall_mem_cons.1 hls
        exact ⟨(c :: l) :: ls, by simp,
          List.forall_mem_cons.2 ⟨List.forall_mem_cons.2 ⟨hin, hl.1⟩, hl.2⟩⟩

/-- Split at its points, the text falls into the labels, with nothing behind the last. -/
theorem splitOn_dotted (hls : ∀ l ∈ ls, ∀ c ∈ l, CharClass.inLabel c = true) :
    (dotted ls).splitOn '.' = ls ++ [[]] := by
  induction ls with
  | nil => rfl
  | cons l ls ih =>
    obtain ⟨hl, hls⟩ := List.forall_mem_cons.1 hls
    have hpoint : ∀ c ∈ l, (c == '.') = false := fun c hc => by
      rw [beq_eq_false_iff_ne]
      rintro rfl
      exact point_not_mem hl hc
    rw [dotted_cons, List.splitOn, List.splitOnP_append_cons_of_forall_mem hpoint _ rfl]
    exact congrArg (l :: ·) (ih hls)

/-- A label is sound and not too long. -/
theorem isLabel_iff (hl : ∀ c ∈ l, CharClass.inLabel c = true) :
    IsLabel l ↔ Label.IsSound l ∧ l.length ≤ maxLabelLength := by
  constructor
  · rintro ⟨-, hhead, ⟨c, hc, halnum⟩, hlength⟩
    refine ⟨⟨(Option.any_eq_true _ _).2 hhead, fun hlast => ?_⟩, hlength⟩
    rw [Option.mem_def, hlast] at hc
    rw [← Option.some.inj hc] at halnum
    exact absurd halnum (by decide)
  · rintro ⟨⟨hbegins, hends⟩, hlength⟩
    obtain ⟨c, hhead, halnum⟩ := (Option.any_eq_true _ _).1 hbegins
    have hne : l ≠ [] := by
      rintro rfl
      simp at hhead
    have hlast := List.getLast?_eq_some_getLast hne
    have hlast' := isAlphanum_or_hyphen (hl _ (List.getLast_mem hne))
    exact ⟨hl, ⟨c, hhead, halnum⟩,
      ⟨_, hlast, hlast'.resolve_right fun heq => hends (heq ▸ hlast)⟩, hlength⟩

/-- Within the limits, labels with their points complete a name if, and only if, they are
    sound. -/
theorem completes_dotted {before : Nat} {first : Bool}
    (hls : ∀ l ∈ ls, ∀ c ∈ l, CharClass.inLabel c = true)
    (hshort : ∀ l ∈ ls, l.length ≤ maxLabelLength)
    (hlength : before + (dotted ls).length - 1 ≤ maxNameLength)
    (hfirst : first = true → ls ≠ []) :
    Completes before first (dotted ls) ↔ ∀ l ∈ ls, Label.IsSound l := by
  induction ls generalizing before first with
  | nil =>
    rw [dotted_nil, completes_nil]
    exact iff_of_true ⟨Bool.eq_false_iff.2 fun h => hfirst h rfl, hlength⟩ (by simp)
  | cons l ls ih =>
    obtain ⟨hl, hls⟩ := List.forall_mem_cons.1 hls
    obtain ⟨hl', hshort⟩ := List.forall_mem_cons.1 hshort
    rw [dotted_cons, List.length_append, List.length_cons] at hlength
    rw [dotted_cons, completes_append_point hl, isLabel_iff hl, and_iff_left hl',
      ih hls hshort (by omega) (by simp), List.forall_mem_cons]

end DomainName

open DomainName (dotted dotted_cons)

/-! ## The two lexers -/

/-- The lexer that calls the recognizer of names, once. -/
def Lexer.wholeName : Lexer 1 :=
  { grammar := fun _ => .recognizer TokenClass.domainName.recognizer (.terminal true none)
    start := .only
    home := .only }

/-- Goes on behind what is accepted only. -/
def Transition.chaining {σ : Type} : Transition σ :=
  { onError := .halt, onReject := .halt }

/-- The lexer that calls the recognizer of labels as long as it accepts. -/
def Lexer.labels : Lexer 1 :=
  { grammar := fun _ => .recognizer TokenClass.label.recognizer .chaining
    start := .only
    home := .only }

/-! ## Spelling -/

/-- The tokens are host names, and spell the characters. -/
def Spells (ts : List Token) (cs : List Char) : Prop :=
  (∀ t ∈ ts, t.kind = .hostname) ∧ Token.concat ts = String.ofList cs

theorem spells_nil : Spells [] cs ↔ cs = [] := by
  have hnil : Token.concat [] = String.ofList [] := rfl
  simp only [Spells, List.not_mem_nil, false_implies, implies_true, true_and, hnil,
    String.ofList_inj, eq_comm]

theorem spells_cons (ht : t.text = String.ofList cs) :
    Spells (t :: ts) (cs ++ ds) ↔ t.kind = .hostname ∧ Spells ts ds := by
  have hconcat : Token.concat (t :: ts) = String.ofList (cs ++ ds) ↔
      Token.concat ts = String.ofList ds := by
    rw [Token.concat_cons, ht, String.ofList_append, String.append_right_inj]
  rw [Spells, hconcat, List.forall_mem_cons, Spells, and_assoc]

theorem not_spells (hts : ∀ t ∈ ts, t.kind = .error) (hcs : cs ≠ []) : ¬Spells ts cs := by
  intro h
  cases ts with
  | nil => exact hcs (spells_nil.1 h)
  | cons t ts =>
    have hkind := h.1 t List.mem_cons_self
    rw [hts t List.mem_cons_self] at hkind
    exact absurd hkind (by decide)

/-- The window of ASCII characters shows them. -/
theorem Reader.Reads.token_eq (h : r.Reads cs r') (hempty : r.start = r.pos)
    (hcs : ∀ c ∈ cs, c.val < 0x80) (kind : Kind) :
    r'.token kind = { kind, pos := r.pos, text := String.ofList cs } := by
  obtain ⟨us, rfl, hunits, hpos⟩ := h.units
  have htext := Utf8.text_extract hunits fun u hu heq => by
    have hascii := hcs _ (List.mem_map_of_mem hu)
    rw [heq] at hascii
    exact absurd hascii (by decide)
  rw [Reader.token, Reader.pending, Reader.window, h.input_eq, h.start_eq, hempty, hpos, htext]

/-! ## Label by label -/

namespace Label

theorem stretch_append_point (hl : ∀ c ∈ l, CharClass.inLabel c = true) (cs : List Char) :
    stretch (l ++ '.' :: cs) = l ++ ['.'] := by
  rw [stretch, List.takeWhile_append_of_pos hl, List.dropWhile_append_of_pos hl,
    List.takeWhile_cons_of_neg (by decide), List.dropWhile_cons_of_neg (by decide),
    List.append_nil, List.head?_cons, if_pos rfl]

theorem isPointed_append_point (hl : ∀ c ∈ l, CharClass.inLabel c = true) (cs : List Char) :
    IsPointed (l ++ '.' :: cs) ↔ IsSound l := by
  have hlabel : (l ++ '.' :: cs).takeWhile CharClass.inLabel = l :=
    Reader.IsRun.takeWhile_eq ⟨hl, fun c hc => by obtain rfl := Option.some.inj hc; rfl⟩
  refine ⟨fun h => hlabel ▸ h.sound, fun h => ⟨hlabel.symm ▸ h, ?_⟩⟩
  rw [List.dropWhile_append_of_pos hl, List.dropWhile_cons_of_neg (by decide)]
  rfl

end Label

theorem call_labels (env : Env) (r : Reader) : Lexer.labels.call env .only r =
    TokenClass.label.recognizer.call env .only .chaining r := rfl

/-- Where no character of a label is ahead, the lexer ends the scan, and emits nothing. -/
theorem call_labels_of_not_inLabel (env : Env) (hempty : r.start = r.pos)
    (hnot : r.ahead.head?.any CharClass.inLabel = false) :
    (Lexer.labels.call env .only r).tokens = [] ∧
      (Lexer.labels.call env .only r).outcome = .done none := by
  rw [call_labels]
  exact call_of_rejected rfl (Prod.ext (Label.read_of_not_inLabel hempty.le hnot).1 rfl)

/-- In front of characters of a label and a point, the lexer emits them and comes home behind
    the point if they are a sound label. If not, it ends the scan, and emits nothing but
    perhaps an error. -/
theorem call_labels_of_point (hopen : env.refusal = none) (hempty : r.start = r.pos)
    (hl : ∀ c ∈ l, CharClass.inLabel c = true) (hahead : r.ahead = l ++ '.' :: cs) :
    (Label.IsSound l ∧ ∃ r',
      (Lexer.labels.call env .only r).tokens =
        [{ kind := .hostname, pos := r.pos, text := String.ofList (l ++ ['.']) }] ∧
      (Lexer.labels.call env .only r).outcome = .done (some .only) ∧
      (Lexer.labels.call env .only r).reader = r' ∧ r'.start = r'.pos ∧ r'.ahead = cs) ∨
    (¬Label.IsSound l ∧ (Lexer.labels.call env .only r).outcome = .done none ∧
      ∀ t ∈ (Lexer.labels.call env .only r).tokens, t.kind = .error) := by
  cases hhead : r.ahead.head?.any CharClass.inLabel with
  | false =>
    -- The point comes first.
    obtain ⟨htokens, houtcome⟩ := call_labels_of_not_inLabel env hempty hhead
    refine .inr ⟨?_, houtcome, by simp [htokens]⟩
    rintro ⟨hbegins, -⟩
    obtain ⟨c, hc, halnum⟩ := (Option.any_eq_true _ _).1 hbegins
    simp [hahead, hc, DomainName.inLabel_of_isAlphanum halnum] at hhead
  | true =>
    have hdecides := Label.decides_read hempty.le hhead
    rcases hread : Label.read .plain r with ⟨reading, r'⟩
    rw [hread, Label.Decides, hahead, Label.stretch_append_point hl,
      Label.isPointed_append_point hl] at hdecides
    simp only at hdecides
    rw [call_labels]
    rcases hdecides with ⟨hreads, ⟨rfl, hsound⟩ | ⟨⟨flaw, rfl⟩, hflawed⟩⟩
    · have hwindow : r'.pos ≠ r'.start := by
        have hlt := hreads.pos_lt (by simp)
        rw [hreads.start_eq]
        omega
      obtain ⟨htokens, houtcome, hreader⟩ := call_of_accepted (q := State.only) (k := .label)
        (t := .chaining) hopen rfl hread hwindow
      have hword := CharClass.inWord_append_point fun c hc => DomainName.inWord_of_inLabel (hl c hc)
      have htoken := hreads.token_eq hempty (fun c hc => DomainName.ascii_of_inWord (hword c hc))
        .hostname
      have hrest := hreads.ahead_eq
      rw [hahead, List.append_assoc, List.singleton_append, List.append_cancel_left_eq,
        List.cons_inj_right] at hrest
      exact .inl ⟨hsound, r'.renew, by rw [htokens, ← htoken]; rfl, houtcome, hreader, rfl,
        hrest.symm⟩
    · obtain ⟨htokens, houtcome, -⟩ := call_of_malformed (q := State.only) (k := .label)
        (t := .chaining) hopen hread
      exact .inr ⟨hflawed, houtcome, by simp [htokens, Reader.token]⟩

/-- Over labels with their points, the calls come to an end, and they spell them with host
    names if, and only if, all of them are sound. -/
theorem calls_dotted (hopen : env.refusal = none) (hempty : r.start = r.pos)
    (hls : ∀ l ∈ ls, ∀ c ∈ l, CharClass.inLabel c = true) (hahead : r.ahead = dotted ls) :
    ∃ k, (Lexer.labels.calls env k (some .only) r).outcome = .done none ∧
      (Spells (Lexer.labels.calls env k (some .only) r).tokens (dotted ls) ↔
        ∀ l ∈ ls, Label.IsSound l) := by
  -- Every call but the last takes one of the labels.
  induction ls generalizing r with
  | nil =>
    obtain ⟨htokens, houtcome⟩ := call_labels_of_not_inLabel env hempty (by rw [hahead]; rfl)
    obtain ⟨hend, htokens'⟩ := Lexer.calls_one_of_halted houtcome
    refine ⟨1, hend, ?_⟩
    rw [htokens', htokens]
    exact iff_of_true (spells_nil.2 rfl) (by simp)
  | cons l ls ih =>
    obtain ⟨hl, hls⟩ := List.forall_mem_cons.1 hls
    rw [dotted_cons] at hahead
    rcases call_labels_of_point hopen hempty hl hahead with
      ⟨hsound, r', htokens, houtcome, hreader, hempty', hahead'⟩ |
      ⟨hflawed, houtcome, hkinds⟩
    · obtain ⟨k, hend, hspells⟩ := ih hempty' hls hahead'
      refine ⟨k + 1, ?_⟩
      have hcut : dotted (l :: ls) = l ++ ['.'] ++ dotted ls := by simp
      rw [Lexer.calls_succ, Run.tokens_andThen_done houtcome, Run.outcome_andThen_done houtcome,
        htokens, hreader, hcut, List.singleton_append, spells_cons rfl, hspells,
        List.forall_mem_cons]
      exact ⟨hend, by simp [hsound]⟩
    · obtain ⟨hend, htokens⟩ := Lexer.calls_one_of_halted houtcome
      refine ⟨1, hend, ?_⟩
      rw [htokens]
      exact iff_of_false (not_spells hkinds (by simp)) fun h => hflawed (h l List.mem_cons_self)

/-! ## The whole name -/

/-- In front of a word that ends the input, the lexer of names ends the scan with one call,
    and emits the word as a host name if, and only if, it is a name. -/
theorem call_name (hopen : env.refusal = none) (hempty : r.start = r.pos)
    (hword : ∀ c ∈ r.ahead, CharClass.inWord c = true) :
    (Lexer.wholeName.call env .only r).outcome = .done none ∧
      ((∃ t, (Lexer.wholeName.call env .only r).tokens = [t] ∧ t.kind = .hostname ∧
        t.text = String.ofList r.ahead) ↔ DomainName.IsName r.ahead) := by
  have hcall : Lexer.wholeName.call env .only r =
      TokenClass.domainName.recognizer.call env .only (.terminal true none) r := rfl
  rw [hcall]
  cases hhead : r.ahead.head?.any CharClass.inLabel with
  | false =>
    obtain ⟨htokens, houtcome⟩ := call_of_rejected (q := State.only) (k := .domainName)
      (t := .terminal true none) rfl (DomainName.read_of_not_inLabel hempty.le hhead)
    refine ⟨houtcome, iff_of_false (by simp [htokens]) fun hname => ?_⟩
    obtain ⟨c, hc, halnum⟩ := hname.head
    rw [Option.mem_def.1 hc, Option.any_some, DomainName.inLabel_of_isAlphanum halnum] at hhead
    simp at hhead
  | true =>
    have hdecides := DomainName.decides_read hempty.le hhead
    rcases hread : DomainName.read .plain r with ⟨reading, r'⟩
    rw [hread, DomainName.Decides, List.takeWhile_eq_self_iff.2 hword] at hdecides
    simp only at hdecides
    rcases hdecides with ⟨hreads, ⟨rfl, hname⟩ | ⟨⟨flaw, rfl⟩, hname⟩⟩
    · have hwindow : r'.pos ≠ r'.start := by
        have hne : r.ahead ≠ [] := fun hnil => by simp [hnil] at hhead
        have hlt := hreads.pos_lt hne
        rw [hreads.start_eq]
        omega
      obtain ⟨htokens, houtcome, -⟩ := call_of_accepted (q := State.only) (k := .domainName)
        (t := .terminal true none) hopen rfl hread hwindow
      have htoken := hreads.token_eq hempty (fun c hc => DomainName.ascii_of_inWord (hword c hc))
        .hostname
      exact ⟨houtcome, iff_of_true ⟨_, htokens, rfl, congrArg Token.text htoken⟩ hname⟩
    · obtain ⟨htokens, houtcome, -⟩ := call_of_malformed (q := State.only) (k := .domainName)
        (t := .terminal true none) hopen hread
      refine ⟨houtcome, iff_of_false ?_ hname⟩
      rintro ⟨t, ht, hkind, -⟩
      rw [htokens] at ht
      rw [← List.singleton_inj.1 ht] at hkind
      simp [Reader.token] at hkind

/-! ## Together -/

/-- For every word that ends with a point, whose pieces have at most 63 bytes, and which has
    at most 253 bytes in front of the last point: a scan for one name yields the word as the
    only host name if, and only if, a scan label by label yields nothing but host names that
    spell it. -/
theorem labels_spell_names (settings : Settings) (file : Option String) (word : String)
    (hword : ∀ c ∈ word.toList, CharClass.inWord c = true)
    (hend : word.toList.getLast? = some '.')
    (hpieces : ∀ piece ∈ word.toList.splitOn '.', piece.length ≤ 63)
    (hlength : word.length - 1 ≤ 253) :
    ∃ ts ts', (Lexer.wholeName.scan settings false file word.toUTF8).1 = .value ts ∧
      (Lexer.labels.scan settings false file word.toUTF8).1 = .value ts' ∧
      ((∃ t, ts = [t] ∧ t.kind = .hostname ∧ t.text = word) ↔
        (∀ t ∈ ts', t.kind = .hostname) ∧ Token.concat ts' = word) := by
  have hpoint : ∀ c ∈ word.toList.getLast?, c = '.' := fun c hc => by
    rw [hend] at hc
    exact (Option.some.inj hc).symm
  obtain ⟨ls, hdotted, hls⟩ := DomainName.exists_dotted hword hpoint
  have hahead := Reader.ahead_toUTF8 word
  have hopen : ({ settings } : Env).refusal = none := rfl
  -- The whole name, by its one call.
  obtain ⟨houtcome, hname⟩ := call_name hopen (r := { input := word.toUTF8 }) rfl
    (by rwa [hahead])
  obtain ⟨houtcome, htokens⟩ := Lexer.calls_one_of_halted houtcome
  rw [← htokens, hahead, String.ofList_toList] at hname
  -- Label by label.
  obtain ⟨k, houtcome', hlabels⟩ := calls_dotted hopen (r := { input := word.toUTF8 }) rfl hls
    (hahead.trans hdotted)
  rw [Spells, ← hdotted, String.ofList_toList] at hlabels
  have hsound : DomainName.IsName word.toList ↔ ∀ l ∈ ls, Label.IsSound l := by
    rw [DomainName.isName_iff, hdotted]
    rw [hdotted, DomainName.splitOn_dotted hls] at hpieces
    refine DomainName.completes_dotted hls (fun l hl => hpieces l (List.mem_append_left _ hl)) ?_ ?_
    · rwa [Nat.zero_add, ← hdotted, String.length_toList]
    · rintro - rfl
      rw [hdotted] at hend
      simp at hend
  refine ⟨_, _, scan_of_endsWith file ⟨1, rfl, ?_⟩, scan_of_endsWith file ⟨k, rfl, ?_⟩,
    hname.trans (hsound.trans hlabels.symm)⟩
  · exact congrArg Outcome.ending houtcome
  · exact congrArg Outcome.ending houtcome'

/-- A host name in two labels, both of which are found: so the whole is found as well. -/
theorem labels_spell_names_host :
    (Lexer.labels.scan {} false none "my-host.x.".toUTF8).1 =
        .value [⟨.hostname, 0, "my-host."⟩, ⟨.hostname, 8, "x."⟩] ∧
      ∃ t, (Lexer.wholeName.scan {} false none "my-host.x.".toUTF8).1 = .value [t] ∧
        t.kind = .hostname ∧ t.text = "my-host.x." := by
  have hlabels : (Lexer.labels.scan {} false none "my-host.x.".toUTF8).1 =
      .value [⟨.hostname, 0, "my-host."⟩, ⟨.hostname, 8, "x."⟩] :=
    scan_of_endsWith none ⟨3, by decide +kernel, by decide +kernel⟩
  refine ⟨hlabels, ?_⟩
  have hword := List.all_eq_true.1 (by decide +kernel : "my-host.x.".toList.all CharClass.inWord)
  obtain ⟨ts, ts', hname, hlabels', hiff⟩ := labels_spell_names {} none "my-host.x." hword
    (by decide +kernel) (by decide +kernel) (by decide +kernel)
  obtain rfl := Reply.value.inj (hlabels.symm.trans hlabels')
  obtain ⟨t, rfl, hkind, htext⟩ := hiff.2 (by decide +kernel)
  exact ⟨t, hname, hkind, htext⟩

end StateLexer
