import StateLexer.Proofs.Standard.Rescan

/-!
# Canonical addresses

If the numbers of an address must be canonical, tokens are lost, and none is found
instead. Both ways to cut a text agree as far as a word with a redundant zero, where an
address begins only if such zeros are allowed. There the strict cut has the whole word as
an error, and the lenient one goes on inside it. But all that it finds there ends with the
word, or else is an error that goes on behind it (`Segments.over_word`), and then what is
behind the word is an error of the strict cut, too. So both cuts come together again, and as
long as they are apart, the strict one has errors only, and the lenient one neither blanks
nor line endings (`Rejoins`, `Segments.rejoins`).

* `canonical_removes`: the strict tokens are some of the lenient ones, and errors.
-/

namespace StateLexer

open Reader (IsRun)

variable {canonical : Bool} {kind : Kind} {c : Char} {cs : List Char} {next : Option Char}
  {us vs ws : List (Char × Nat)} {segs segs' : List (Kind × List (Char × Nat))}
  {bytes : ByteArray}

/-! ## Words -/

/-- A lexeme that begins in a word is no layout, and ends in the word unless it begins no
    token. -/
theorem Lexeme.of_inWord (h : Lexeme canonical kind cs next) (hc : c ∈ cs.head?)
    (hword : CharClass.inWord c = true) :
    kind.isLayout = false ∧ ((∀ d ∈ cs, CharClass.inWord d = true) ∨
      kind = .error ∧ IsRun (fun d => !beginsToken d) cs next) := by
  rcases h.sorts with ⟨-, hcs⟩ | ⟨hkind, hcs⟩ | ⟨rfl, hrun⟩
  · rcases hcs c (List.mem_of_head? hc) with rfl | rfl | rfl | rfl <;>
      exact absurd hword (by decide)
  · exact ⟨hkind, .inl hcs⟩
  · exact ⟨rfl, .inr ⟨rfl, hrun⟩⟩

/-- The lexemes that begin in a word end with the word, or with a run behind it that begins
    no token. -/
theorem Segments.over_word (h : Segments canonical (ws ++ vs) segs)
    (hws : ∀ u ∈ ws, CharClass.inWord u.1 = true)
    (hvs : ∀ u ∈ vs.head?, CharClass.inWord u.1 = false) :
    ∃ front back xs zs, segs = front ++ back ∧ vs = xs ++ zs ∧ unitsOf front = ws ++ xs ∧
      (∀ seg ∈ front, seg.1.isLayout = false) ∧ Segments canonical zs back ∧
      (xs ≠ [] → IsRun (fun c => !beginsToken c) (xs.map Prod.fst) (zs.head?.map Prod.fst)) := by
  generalize hus : ws ++ vs = us at h
  induction h generalizing ws with
  | nil =>
    obtain ⟨rfl, rfl⟩ := List.append_eq_nil_iff.1 hus
    exact ⟨[], [], [], [], rfl, rfl, rfl, by simp, .nil, by simp⟩
  | @cons kind us rest segs lexeme segments ih =>
    cases ws with
    | nil =>
      obtain rfl : vs = us ++ rest := hus
      exact ⟨[], _, [], _, rfl, rfl, rfl, by simp, .cons lexeme segments, by simp⟩
    | cons w ws =>
      obtain ⟨u, us, rfl⟩ := List.exists_cons_of_ne_nil lexeme.units_ne_nil
      obtain rfl : w = u := (List.cons.inj hus).1
      obtain ⟨hlayout, hends⟩ := lexeme.of_inWord rfl (hws w List.mem_cons_self)
      rcases List.append_eq_append_iff.1 hus with ⟨xs, hxs, hvs'⟩ | ⟨ws', hws', hrest⟩
      · -- The lexeme ends with the word or goes on behind it, and then it begins no token.
        refine ⟨[(kind, w :: us)], segs, xs, rest, rfl, hvs', by simp [hxs], by simp [hlayout],
          segments, fun hne => ?_⟩
        obtain ⟨x, xs, rfl⟩ := List.exists_cons_of_ne_nil hne
        rw [hxs] at hends
        rcases hends with hword | ⟨-, hrun⟩
        · have hnot := hvs x (by rw [hvs']; rfl)
          rw [hword x.1 (by simp)] at hnot
          simp at hnot
        · refine ⟨fun c hc => hrun.1 c ?_, hrun.2⟩
          rw [List.map_append]
          exact List.mem_append_right _ hc
      · -- The lexeme leaves a part of the word.
        have hpart : ∀ u ∈ ws', CharClass.inWord u.1 = true := fun u hu =>
          hws u (by rw [hws']; exact List.mem_append_right _ hu)
        obtain ⟨front, back, xs, zs, rfl, hvs', hunits, hfront, hback, hxs⟩ := ih hpart hrest.symm
        refine ⟨(kind, w :: us) :: front, back, xs, zs, rfl, hvs', ?_, ?_, hback, hxs⟩
        · rw [unitsOf_cons, hunits, hws', List.append_assoc]
        · exact List.forall_mem_cons.2 ⟨hlayout, hfront⟩

/-! ## Both cuts -/

/-- Both cuts have the same segments, but for stretches where the first has errors only and
    the second has no layout. -/
inductive Rejoins :
    List (Kind × List (Char × Nat)) → List (Kind × List (Char × Nat)) → Prop
  | nil : Rejoins [] []
  | same {segs segs' : List (Kind × List (Char × Nat))} (seg : Kind × List (Char × Nat))
      (rest : Rejoins segs segs') : Rejoins (seg :: segs) (seg :: segs')
  | apart {front front' segs segs' : List (Kind × List (Char × Nat))}
      (units : unitsOf front = unitsOf front') (errors : ∀ seg ∈ front, seg.1 = .error)
      (noLayout : ∀ seg ∈ front', seg.1.isLayout = false) (rest : Rejoins segs segs') :
      Rejoins (front ++ segs) (front' ++ segs')

theorem Address.Joined.lenient {more : Nat} (h : Address.Joined true more cs) :
    Address.Joined false more cs := by
  induction more generalizing cs with
  | zero => exact List.mem_append_left _ (by simpa [Address.Joined, Address.octets] using h)
  | succ more ih =>
    obtain ⟨o, rest, ho, hrest, rfl⟩ := h
    exact ⟨o, rest, List.mem_append_left _ (by simpa [Address.octets] using ho), ih hrest, rfl⟩

/-- A strict lexeme is a lenient one, unless it is a whole word. -/
theorem Lexeme.lenient_or (h : Lexeme true kind cs next) :
    Lexeme false kind cs next ∨ kind = .error ∧ IsRun CharClass.inWord cs next := by
  cases h with
  | space nonempty run => exact .inl (.space nonempty run)
  | lineFeed => exact .inl .lineFeed
  | carriageReturn alone => exact .inl (.carriageReturn alone)
  | lineEnding => exact .inl .lineEnding
  | address address ends => exact .inl (.address address.lenient ends)
  | hostname letter run name => exact .inl (.hostname letter run name)
  | noName letter run noName => exact .inl (.noName letter run noName)
  | noAddress digit run noAddress => exact .inr ⟨rfl, run⟩
  | unknown nonempty run => exact .inl (.unknown nonempty run)

/-- Both cuts of a text come together wherever they part. -/
theorem Segments.rejoins (h : Segments true us segs) (h' : Segments false us segs') :
    Rejoins segs segs' := by
  -- Behind a word, the strict cut may have another error before the cuts are together.
  induction hm : us.length using Nat.strongRecOn generalizing us segs segs' with
  | ind m ih =>
    cases h with
    | nil =>
      obtain rfl := h'.unique .nil
      exact .nil
    | @cons kind us rest segs lexeme segments =>
      have hpos := List.length_pos_iff.2 lexeme.units_ne_nil
      rw [List.length_append] at hm
      rcases lexeme.lenient_or with hlenient | ⟨rfl, hrun⟩
      · obtain ⟨segs', rfl, hsegs'⟩ := h'.eq_cons hlenient
        exact .same _ (ih _ (by omega) segments hsegs' rfl)
      · obtain ⟨front, back, xs, zs, rfl, rfl, hunits, hfront, hback, hxs⟩ :=
          h'.over_word (fun u hu => hrun.1 u.1 (List.mem_map_of_mem hu)) fun u hu =>
            hrun.2 u.1 (by rw [Option.mem_def.1 hu]; rfl)
        rw [List.length_append] at hm
        rcases eq_or_ne xs [] with rfl | hne
        · refine @Rejoins.apart [(.error, us)] _ _ _ ?_ (by simp) hfront
            (ih _ (by rw [List.length_append]; omega) segments hback rfl)
          rw [hunits, unitsOf_cons, unitsOf_nil]
        · obtain ⟨segs, rfl, hsegs⟩ :=
            segments.eq_cons (.unknown (by simpa using hne) (hxs hne))
          refine @Rejoins.apart [(.error, us), (.error, xs)] _ _ _ ?_ (by simp) hfront
            (ih _ (by omega) hsegs hback rfl)
          rw [hunits, unitsOf_cons, unitsOf_cons, unitsOf_nil, List.append_nil]

/-! ## Tokens -/

/-- In front of the end, the segments of other kinds leave nothing. -/
theorem filter_dropLast_eq_nil {p : Kind → Bool} (h : ∀ seg ∈ segs, p seg.1 = false)
    (bytes : ByteArray) (pos : Nat) :
    (tokensFrom bytes pos segs).dropLast.filter (fun t => p t.kind) = [] := by
  refine List.filter_eq_nil_iff.2 fun t ht => ?_
  obtain ⟨seg, hseg, hkind⟩ := exists_seg_of_mem_dropLast ht
  rw [hkind, h seg hseg]
  exact Bool.false_ne_true

/-- Of the strict tokens, all but the errors are among the lenient ones. -/
theorem Rejoins.sublist (h : Rejoins segs segs') (bytes : ByteArray) (pos : Nat) :
    ((tokensFrom bytes pos segs).filter (·.kind ≠ .error)).Sublist
      (tokensFrom bytes pos segs') := by
  induction h generalizing pos with
  | nil => exact List.filter_sublist
  | same seg rest ih =>
    obtain ⟨kind, us⟩ := seg
    rw [tokensFrom, tokensFrom, List.filter_cons]
    split
    · exact (ih _).cons_cons _
    · exact (ih _).cons _
  | @apart front front' segs segs' units errors noLayout rest ih =>
    have hnone : ∀ seg ∈ front, decide (seg.1 ≠ .error) = false :=
      fun seg hseg => by simp [errors seg hseg]
    have hfront := filter_dropLast_eq_nil (p := fun k => decide (k ≠ .error)) hnone bytes pos
    rw [tokensFrom_append, tokensFrom_append, units, List.filter_append, hfront, List.nil_append]
    exact (ih _).trans (List.sublist_append_right _ _)

/-- Both cuts have the same layout. -/
theorem Rejoins.filter_isLayout (h : Rejoins segs segs') (bytes : ByteArray) (pos : Nat) :
    (tokensFrom bytes pos segs).filter (·.kind.isLayout) =
      (tokensFrom bytes pos segs').filter (·.kind.isLayout) := by
  induction h generalizing pos with
  | nil => rfl
  | same seg rest ih =>
    obtain ⟨kind, us⟩ := seg
    rw [tokensFrom, tokensFrom, List.filter_cons, List.filter_cons, ih]
  | @apart front front' segs segs' units errors noLayout rest ih =>
    have hnone : ∀ seg ∈ front, seg.1.isLayout = false :=
      fun seg hseg => by rw [errors seg hseg]; rfl
    rw [tokensFrom_append, tokensFrom_append, units, List.filter_append, List.filter_append,
      filter_dropLast_eq_nil hnone, filter_dropLast_eq_nil noLayout, ih]

/-- The text of an address is one. -/
theorem isAddress_of_mem {t : Token} (h : Segments canonical (Utf8.runes.units bytes) segs)
    (ht : t ∈ tokensFrom bytes 0 segs) (hkind : t.kind = .address) :
    Address.IsAddress canonical t.text.toList := by
  obtain ⟨pos, us, rest, hunits, hlexeme, htext⟩ :=
    h.exists_lexeme rfl ht (by rw [hkind]; decide)
  have hshown := hlexeme.shown hunits
  rw [← htext, hkind] at hshown
  cases hshown with
  | address address ends => exact address

/-- If the numbers of addresses must be canonical, tokens are only removed: but for the
    errors, the tokens are some of those there are if they need not be, with the same
    layout, and the numbers of all addresses are canonical. -/
theorem canonical_removes (settings : Settings) (file : Option String) (input : ByteArray) :
    ∃ ts ts',
      (Lexer.standard.scan { settings with canonicalOctets := true } false file input).1 =
        .value ts ∧
      (Lexer.standard.scan { settings with canonicalOctets := false } false file input).1 =
        .value ts' ∧
      (ts.filter (·.kind ≠ .error)).Sublist ts' ∧
      ts.filter (·.kind.isLayout) = ts'.filter (·.kind.isLayout) ∧
      ∀ t ∈ ts, t.kind = .address → Address.IsAddress true t.text.toList := by
  obtain ⟨segs, hsegs, hscan⟩ :=
    scan_standard { settings with canonicalOctets := true } file input
  obtain ⟨segs', hsegs', hscan'⟩ :=
    scan_standard { settings with canonicalOctets := false } file input
  have hrejoins := hsegs.rejoins hsegs'
  exact ⟨_, _, hscan, hscan', hrejoins.sublist input 0, hrejoins.filter_isLayout input 0,
    fun t ht hkind => isAddress_of_mem hsegs ht hkind⟩

/-- A redundant zero makes a whole word an error, and the hyphen that is lost with it is
    found behind the lenient address, together with what follows the word. -/
theorem canonical_removes_zero :
    let input := "1.2.3.4 1.2.3.04-/".toUTF8
    let ts : List Token := [⟨.address, 0, "1.2.3.4"⟩, ⟨.space, 7, " "⟩, ⟨.error, 8, "1.2.3.04-"⟩,
      ⟨.error, 17, "/"⟩, ⟨.endOfInput, 18, ""⟩]
    let ts' : List Token := [⟨.address, 0, "1.2.3.4"⟩, ⟨.space, 7, " "⟩,
      ⟨.address, 8, "1.2.3.04"⟩, ⟨.error, 16, "-/"⟩, ⟨.endOfInput, 18, ""⟩]
    (Lexer.standard.scan { canonicalOctets := true } false none input).1 = .value ts ∧
      (Lexer.standard.scan { canonicalOctets := false } false none input).1 = .value ts' ∧
      (ts.filter (·.kind ≠ .error)).Sublist ts' ∧
      Address.IsAddress true "1.2.3.4".toList := by
  intro input ts ts'
  have hscan : (Lexer.standard.scan { canonicalOctets := true } false none input).1 =
      .value ts := scan_of_endsWith none ⟨9, by decide +kernel, by decide +kernel⟩
  have hscan' : (Lexer.standard.scan { canonicalOctets := false } false none input).1 =
      .value ts' := scan_of_endsWith none ⟨9, by decide +kernel, by decide +kernel⟩
  obtain ⟨us, us', hus, hus', hsublist, -, haddress⟩ := canonical_removes {} none input
  have hts : us = ts := Reply.value.inj (hus.symm.trans hscan)
  have hts' : us' = ts' := Reply.value.inj (hus'.symm.trans hscan')
  rw [hts, hts'] at hsublist
  rw [hts] at haddress
  exact ⟨hscan, hscan', hsublist, haddress _ List.mem_cons_self rfl⟩

end StateLexer
