import StateLexer.Proofs.Reader.Ahead
import StateLexer.Recognizer.Address

/-!
# The language of addresses

An address is four numbers with points between them (`Address.IsAddress`), each of
them written as one of finitely many `octets`, and it *ends* where no digit and no
point follow (`Address.Ends`). The recognizer reads the digits of a number one by
one and gives none back. It misses no address by that, since every beginning of an
octet is an octet (`mem_octets_of_append`): it reads the longest octet there is
(`reads_readOctet`), and the octet of an address is followed by no digit, hence is
that one (`eq_of_longest`).

* `decides_readOctets`: the recognizer accepts exactly the addresses that end, and
  otherwise reads the whole word;
* `Joined.unique`: a text begins with at most one address that ends.
-/

namespace StateLexer.Address

/-! ## Octets -/

/-- The digits. -/
def digits : List Char :=
  (List.range 10).map Nat.digitChar

/-- The numbers of an address, as they are written: the decimal numerals up to 255,
    and unless they must be canonical, those of one digit with a zero in front. -/
def octets (canonical : Bool) : List (List Char) :=
  (List.range 256).map (Nat.toDigits 10) ++ if canonical then [] else digits.map fun d => ['0', d]

theorem mem_digits {c : Char} (h : c.isDigit = true) : c ∈ digits := by
  have hall : ∀ n < 58, 48 ≤ n → Char.ofNat n ∈ digits := by decide
  obtain ⟨hlow, hhigh⟩ := Char.isDigit_iff_toNat.1 h
  have hc := hall c.toNat (Nat.lt_succ_of_le hhigh) hlow
  rwa [Char.ofNat_toNat] at hc

theorem forall_digits {p : Char → Prop} (h : ∀ k < 10, p (Nat.digitChar k)) :
    ∀ d ∈ digits, p d := by
  intro d hd
  obtain ⟨k, hk, rfl⟩ := List.mem_map.1 hd
  exact h k (List.mem_range.1 hk)

variable {canonical : Bool} {o o' : List Char} {c lead : Char}

theorem isDigit_of_le (hlow : '0' ≤ c) (hhigh : c ≤ '9') : c.isDigit = true :=
  Char.isDigit_iff_toNat.2 ⟨hlow, hhigh⟩

theorem toDigits_mem_octets (canonical : Bool) {n : Nat} (hn : n < 256) :
    Nat.toDigits 10 n ∈ octets canonical :=
  List.mem_append_left _ (List.mem_map_of_mem (List.mem_range.2 hn))

theorem isDigit_of_mem_octets (ho : o ∈ octets canonical) : ∀ c ∈ o, c.isDigit = true := by
  have hall : ∀ canonical, ∀ o ∈ octets canonical, o.all Char.isDigit = true := by decide +kernel
  exact List.all_eq_true.1 (hall canonical o ho)

theorem ne_nil_of_mem_octets (ho : o ∈ octets canonical) : o ≠ [] := by
  have hall : ∀ canonical, ∀ o ∈ octets canonical, o ≠ [] := by decide +kernel
  exact hall canonical o ho

theorem mem_octets_of_append_singleton (h : o ++ [c] ∈ octets canonical) (ho : o ≠ []) :
    o ∈ octets canonical := by
  simp only [octets, List.mem_append, List.mem_map, List.mem_range] at h ⊢
  rcases h with ⟨n, hn, hnumeral⟩ | h
  · left
    rcases Nat.lt_or_ge n 10 with hlt | hge
    · rw [Nat.toDigits_of_lt_base hlt] at hnumeral
      have hlength := congrArg List.length hnumeral
      have hpos := List.length_pos_iff.2 ho
      rw [List.length_append, List.length_singleton, List.length_singleton] at hlength
      omega
    · -- Without its last digit, the numeral is that of a tenth.
      rw [Nat.toDigits_of_base_le (by decide) hge] at hnumeral
      exact ⟨n / 10, by omega, (List.append_inj_left' hnumeral rfl)⟩
  · cases canonical with
    | true => simp at h
    | false =>
      obtain ⟨d, -, hd⟩ := List.mem_map.1 h
      have happend : ['0'] ++ [d] = o ++ [c] := hd
      have hzero : ['0'] = o := List.append_inj_left' happend rfl
      exact .inl ⟨0, by decide, by rw [Nat.toDigits_zero, hzero]⟩

/-- What begins an octet is an octet. -/
theorem mem_octets_of_append {more : List Char} (h : o ++ more ∈ octets canonical) (ho : o ≠ []) :
    o ∈ octets canonical := by
  induction more generalizing o with
  | nil => rwa [List.append_nil] at h
  | cons c more ih =>
    rw [List.append_cons] at h
    exact mem_octets_of_append_singleton (ih h (by simp)) ho

theorem length_le_of_mem_octets (ho : o ∈ octets canonical) : o.length ≤ 3 := by
  have hall : ∀ canonical, ∀ o ∈ octets canonical, o.length ≤ 3 := by decide +kernel
  exact hall canonical o ho

/-! ## Longest octets -/

/-- The octet `o` cannot be continued by the character `next` behind it. -/
def Longest (canonical : Bool) (o : List Char) (next : Option Char) : Prop :=
  o ∈ octets canonical ∧ ∀ c ∈ next, o ++ [c] ∉ octets canonical

/-- An octet in front of no digit is the longest one there is. -/
theorem eq_of_longest {rest rest' : List Char} (h : Longest canonical o rest.head?)
    (ho' : o' ∈ octets canonical) (hrest' : ∀ c ∈ rest'.head?, c.isDigit = false)
    (heq : o ++ rest = o' ++ rest') : o = o' := by
  rcases List.append_eq_append_iff.1 heq with ⟨more, rfl, rfl⟩ | ⟨more, rfl, rfl⟩
  · cases more with
    | nil => exact (List.append_nil o).symm
    | cons c more =>
      -- The other octet goes on, so the longest one could.
      rw [List.append_cons] at ho'
      exact absurd (mem_octets_of_append ho' (by simp)) (h.2 c rfl)
  · cases more with
    | nil => exact List.append_nil o'
    | cons c more =>
      have hdigit := isDigit_of_mem_octets h.1 c (by simp)
      rw [hrest' c rfl] at hdigit
      simp at hdigit

/-- The characters that continue the octet `o` are those that satisfy `p`. -/
def Continues (canonical : Bool) (o : List Char) (p : Char → Bool) : Prop :=
  ∀ c, o ++ [c] ∈ octets canonical ↔ p c = true

/-- Whether digits continue an octet decides which characters do. -/
theorem continues_of_digits {p : Char → Bool} (hp : ∀ c, p c = true → c.isDigit = true)
    (hdigits : ∀ d ∈ digits, o ++ [d] ∈ octets canonical ↔ p d = true) :
    Continues canonical o p := by
  intro c
  constructor
  · intro hc
    exact (hdigits c (mem_digits (isDigit_of_mem_octets hc c (by simp)))).1 hc
  · intro hc
    exact (hdigits c (mem_digits (hp c hc))).2 hc

theorem continues_of_mem (hdigits : ∀ d ∈ digits, o ++ [d] ∈ octets canonical) :
    Continues canonical o Char.isDigit :=
  continues_of_digits (fun _ hc => hc) fun d hd =>
    iff_of_true (hdigits d hd) (isDigit_of_mem_octets (hdigits d hd) d (by simp))

/-- Nothing continues an octet of three digits. -/
theorem continues_of_length (ho : o.length = 3) : Continues canonical o fun _ => false := by
  intro c
  refine ⟨fun hc => ?_, fun hc => by simp at hc⟩
  have hlength := length_le_of_mem_octets hc
  rw [List.length_append, ho] at hlength
  simp at hlength

/-- Nothing continues two digits, if the first is neither a one nor a two, or is a
    two and the second is above five. -/
theorem continues_of_high {second : Char} (hlead : lead ≠ '1')
    (hsecond : lead = '2' → '5' < second) :
    Continues canonical [lead, second] fun _ => false := by
  have hall : ∀ canonical, ∀ o ∈ octets canonical, o.length = 3 →
      o[0]? = some '1' ∨ o[0]? = some '2' ∧ o[1]?.all (· ≤ '5') = true := by decide +kernel
  intro c
  refine ⟨fun hc => ?_, fun hc => by simp at hc⟩
  rcases hall canonical _ hc rfl with hone | ⟨htwo, hle⟩
  · exact absurd (Option.some.inj hone) hlead
  · have hsecond' : second ≤ '5' := of_decide_eq_true hle
    exact absurd hsecond' (Char.not_le.2 (hsecond (Option.some.inj htwo)))

/-- A digit continues a lead, unless that is a zero that must stand alone. -/
theorem continues_lead (hlead : lead.isDigit = true) (hzero : ¬(lead = '0' ∧ canonical = true)) :
    Continues canonical [lead] Char.isDigit := by
  have hnumeral : ∀ k < 10, 0 < k → ∀ j < 10,
      Nat.toDigits 10 (10 * k + j) = [k.digitChar, j.digitChar] := by decide
  refine continues_of_mem fun d hd => ?_
  obtain ⟨k, hk, rfl⟩ := List.mem_map.1 (mem_digits hlead)
  obtain ⟨j, hj, rfl⟩ := List.mem_map.1 hd
  rw [List.mem_range] at hk hj
  rcases Nat.eq_zero_or_pos k with rfl | hpos
  · cases canonical with
    | true => exact absurd ⟨rfl, rfl⟩ hzero
    | false => exact List.mem_append_right _ (List.mem_map_of_mem hd)
  · have hmem := toDigits_mem_octets canonical (by omega : 10 * k + j < 256)
    rwa [hnumeral k hk hpos j hj] at hmem

theorem continues_zero : Continues true ['0'] fun _ => false := by
  refine continues_of_digits (fun _ hc => by simp at hc) (forall_digits ?_)
  decide +kernel

/-- A digit continues two digits that begin a number below 250. -/
theorem continues_of_low {second : Char} (hsecond : second.isDigit = true)
    (hlead : lead = '1' ∨ lead = '2' ∧ second ≤ '4') :
    Continues canonical [lead, second] Char.isDigit := by
  have hnumeral : ∀ k ∈ [1, 2], ∀ i < 10, ∀ j < 10,
      Nat.toDigits 10 (100 * k + 10 * i + j) = [k.digitChar, i.digitChar, j.digitChar] := by decide
  have hlow : ∀ i < 10, Nat.digitChar i ≤ '4' → i ≤ 4 := by decide
  refine continues_of_mem fun d hd => ?_
  obtain ⟨i, hi, rfl⟩ := List.mem_map.1 (mem_digits hsecond)
  obtain ⟨j, hj, rfl⟩ := List.mem_map.1 hd
  rw [List.mem_range] at hi hj
  rcases hlead with rfl | ⟨rfl, hle⟩
  · have hmem := toDigits_mem_octets canonical (by omega : 100 * 1 + 10 * i + j < 256)
    rwa [hnumeral 1 (by simp) i hi j hj] at hmem
  · have hi' := hlow i hi hle
    have hmem := toDigits_mem_octets canonical (by omega : 100 * 2 + 10 * i + j < 256)
    rwa [hnumeral 2 (by simp) i hi j hj] at hmem

theorem continues_two_five :
    Continues canonical ['2', '5'] fun c => '0' ≤ c && c ≤ '5' := by
  refine continues_of_digits (fun c hc => ?_) (forall_digits ?_)
  · simp only [Bool.and_eq_true, decide_eq_true_eq] at hc
    exact isDigit_of_le hc.1 (Char.le_trans hc.2 (by decide))
  · cases canonical <;> decide +kernel

variable {r : Reader} {p : Char → Bool}

/-- A character is read if it continues the octet, and else the octet is the longest. -/
theorem reads_continued (h : r.start ≤ r.pos) (ho : o ∈ octets canonical)
    (hp : Continues canonical o p) :
    (∃ c, p c = true ∧ (r.acceptChar p).1 = true ∧ r.Reads [c] (r.acceptChar p).2 ∧
        o ++ [c] ∈ octets canonical) ∨
      (r.acceptChar p).1 = false ∧ r.Reads [] (r.acceptChar p).2 ∧
        Longest canonical o (r.acceptChar p).2.ahead.head? := by
  rcases Reader.reads_acceptChar p h with ⟨c, hc, hfst, hreads⟩ | ⟨hfst, hreads, hnext⟩
  · exact .inl ⟨c, hc, hfst, hreads, (hp c).2 hc⟩
  · refine .inr ⟨hfst, hreads, ho, fun c hc hmem => ?_⟩
    have hyes := (hp c).1 hmem
    rw [hnext c hc] at hyes
    simp at hyes

/-- The last digit of an octet, if there is one, is read. -/
theorem reads_last (h : r.start ≤ r.pos) (ho : o ∈ octets canonical)
    (hp : Continues canonical o p)
    (hlast : ∀ c, p c = true → Continues canonical (o ++ [c]) fun _ => false) :
    ∃ t, r.Reads t (r.acceptChar p).2 ∧
      Longest canonical (o ++ t) (r.acceptChar p).2.ahead.head? := by
  rcases reads_continued h ho hp with ⟨c, hc, -, hreads, hmem⟩ | ⟨-, hreads, hlongest⟩
  · refine ⟨[c], hreads, hmem, fun d _ hd => ?_⟩
    simpa using (hlast c hc d).1 hd
  · refine ⟨[], hreads, ?_⟩
    rwa [List.append_nil]

/-- The digits behind a two are read as long as they continue the octet. -/
theorem reads_readTail_two (h : r.start ≤ r.pos) :
    ∃ t, r.Reads t (readTail .plain canonical '2' r).2 ∧
      Longest canonical ('2' :: t) (readTail .plain canonical '2' r).2.ahead.head? := by
  have hmem : ['2'] ∈ octets canonical := toDigits_mem_octets canonical (by decide : 2 < 256)
  have hcont : Continues canonical ['2'] Char.isDigit :=
    continues_lead rfl (by simp)
  simp only [readTail, Mode.plain_andThen, Mode.plain_acceptChar, Char.reduceEq, if_false, if_true]
  rcases Reader.reads_acceptChar (fun c => '0' ≤ c && c ≤ '4') h with
    ⟨c, hc, hfst, hreads⟩ | ⟨hfst, hreads, hlow⟩
  · -- A digit up to four, and any other behind it.
    simp only [hfst, if_true]
    simp only [Bool.and_eq_true, decide_eq_true_eq] at hc
    have hdigit := isDigit_of_le hc.1 (Char.le_trans hc.2 (by decide))
    obtain ⟨t, ht, hlongest⟩ := reads_last hreads.start_le ((hcont c).2 hdigit)
      (continues_of_low hdigit (.inr ⟨rfl, hc.2⟩)) fun d _ => continues_of_length rfl
    exact ⟨c :: t, hreads.trans ht, hlongest⟩
  simp only [hfst]
  generalize (r.acceptChar fun c => '0' ≤ c && c ≤ '4').2 = r₁ at *
  rcases Reader.reads_acceptChar (· = '5') hreads.start_le with
    ⟨c, hc, hfst, hreads'⟩ | ⟨hfst, hreads', hfive⟩
  · -- A five, and a digit up to five.
    simp only [hfst, if_true]
    obtain rfl : c = '5' := of_decide_eq_true hc
    obtain ⟨t, ht, hlongest⟩ := reads_last hreads'.start_le ((hcont '5').2 rfl)
      continues_two_five fun d _ => continues_of_length rfl
    exact ⟨'5' :: t, (hreads.trans hreads').trans ht, hlongest⟩
  simp only [hfst]
  generalize (r₁.acceptChar (· = '5')).2 = r₂ at *
  rcases Reader.reads_acceptChar (fun c => '6' ≤ c && c ≤ '9') hreads'.start_le with
    ⟨c, hc, -, hreads''⟩ | ⟨-, hreads'', hhigh⟩
  · -- A digit above five, and no other.
    simp only [Bool.and_eq_true, decide_eq_true_eq] at hc
    have hdigit := isDigit_of_le (Char.le_trans (by decide) hc.1) hc.2
    have hfull : Continues canonical ['2', c] fun _ => false :=
      continues_of_high (by decide) fun _ => Std.lt_of_lt_of_le (by decide) hc.1
    refine ⟨[c], (hreads.trans hreads').trans hreads'', (hcont c).2 hdigit, fun d _ hd => ?_⟩
    simpa using (hfull d).1 hd
  · -- A digit would have been read.
    have hnone : ∀ d ∈ digits, ('0' ≤ d && d ≤ '4') = false → decide (d = '5') = false →
        ('6' ≤ d && d ≤ '9') = false → False := forall_digits (by decide)
    refine ⟨[], (hreads.trans hreads').trans hreads'', hmem, fun c hc hd => ?_⟩
    have hahead := hreads''.ahead_nil
    have hahead' := hreads'.ahead_nil
    exact hnone c (mem_digits ((hcont c).1 hd)) (hlow c (by rwa [hahead', hahead]))
      (hfive c (by rwa [hahead])) (hhigh c hc)

/-- The digits behind the first are read as long as they continue the octet. -/
theorem reads_readTail (canonical : Bool) (hlead : lead.isDigit = true) (h : r.start ≤ r.pos) :
    ∃ t, r.Reads t (readTail .plain canonical lead r).2 ∧
      Longest canonical (lead :: t) (readTail .plain canonical lead r).2.ahead.head? := by
  by_cases htwo : lead = '2'
  · subst htwo
    exact reads_readTail_two h
  have hmem : [lead] ∈ octets canonical := by
    have hall : ∀ d ∈ digits, [d] ∈ octets canonical := forall_digits fun k hk => by
      rw [← Nat.toDigits_of_lt_base hk]
      exact toDigits_mem_octets canonical (by omega)
    exact hall lead (mem_digits hlead)
  by_cases hone : lead = '1'
  · have hcont : Continues canonical [lead] Char.isDigit := continues_lead hlead (by simp [hone])
    simp only [readTail, Mode.plain_andThen, Mode.plain_acceptChar, hone, if_true]
    rw [hone] at hmem hcont
    rcases reads_continued h hmem hcont with ⟨c, hc, hfst, hreads, hmem'⟩ | ⟨hfst, hreads, hlongest⟩
    · simp only [hfst, if_true]
      obtain ⟨t, ht, hlongest⟩ := reads_last hreads.start_le hmem'
        (continues_of_low hc (.inl rfl)) fun d _ => continues_of_length rfl
      exact ⟨c :: t, hreads.trans ht, hlongest⟩
    · simp only [hfst]
      exact ⟨[], hreads, hlongest⟩
  simp only [readTail, Mode.plain_acceptChar, hone, htwo, if_false]
  split
  · next hzero =>
    obtain ⟨hlead', rfl⟩ : lead = '0' ∧ canonical = true := by simpa using hzero
    refine ⟨[], Reader.reads_refl h, hmem, fun c _ hc => ?_⟩
    subst hlead'
    simpa using (continues_zero c).1 hc
  · next hzero =>
    have hcont : Continues canonical [lead] Char.isDigit :=
      continues_lead hlead (by simpa using hzero)
    exact reads_last h hmem hcont fun c _ => continues_of_high hone fun h => absurd h htwo

/-- A number is read if, and only if, there is a digit, and it is the longest octet. -/
theorem reads_readOctet (canonical : Bool) (h : r.start ≤ r.pos) :
    (∃ o, (readOctet .plain canonical r).1 = true ∧ r.Reads o (readOctet .plain canonical r).2 ∧
        Longest canonical o (readOctet .plain canonical r).2.ahead.head?) ∨
      (readOctet .plain canonical r).1 = false ∧ r.Reads [] (readOctet .plain canonical r).2 ∧
        ∀ c ∈ r.ahead.head?, c.isDigit = false := by
  have hstep := Reader.next_fst h
  have hback := Reader.reads_stepBack_next h
  rw [readOctet]
  split
  · next c r' hnext =>
    rw [hnext] at hstep hback
    obtain ⟨cs, hahead⟩ := List.head?_eq_some_iff.1 hstep.symm
    have hreads := (Reader.next_of_cons h hahead).2
    rw [hnext] at hreads
    split
    · next hc =>
      obtain ⟨t, ht, hlongest⟩ := reads_readTail canonical hc hreads.start_le
      exact .inl ⟨c :: t, rfl, hreads.trans ht, hlongest⟩
    · next hc =>
      refine .inr ⟨rfl, hback, fun d hd => ?_⟩
      rw [← hstep] at hd
      rw [← Option.some.inj hd]
      simpa using hc
  · next r' hnext =>
    rw [hnext] at hstep hback
    refine .inr ⟨rfl, hback, fun d hd => ?_⟩
    rw [← hstep] at hd
    simp at hd

/-! ## Addresses -/

/-- The text is `more + 1` octets with points between them. -/
def Joined (canonical : Bool) : (more : Nat) → List Char → Prop
  | 0, cs => cs ∈ octets canonical
  | more + 1, cs => ∃ o rest, o ∈ octets canonical ∧ Joined canonical more rest ∧
      cs = o ++ '.' :: rest

/-- The text is an address. -/
def IsAddress (canonical : Bool) (cs : List Char) : Prop :=
  Joined canonical (octetCount - 1) cs

/-- An address can end in front of the character `next`. -/
def Ends (next : Option Char) : Prop :=
  ∀ c ∈ next, c.isDigit = false ∧ c ≠ '.'

theorem inWord_of_isDigit (hc : c.isDigit = true) : CharClass.inWord c = true := by
  simp [CharClass.inWord, CharClass.inLabel, CharClass.has, Char.isAlphanum, hc]

theorem inWord_of_mem_octets (ho : o ∈ octets canonical) : ∀ c ∈ o, CharClass.inWord c = true :=
  fun c hc => inWord_of_isDigit (isDigit_of_mem_octets ho c hc)

/-- An octet in front of a point is the longest one there is. -/
theorem eq_of_longest_of_point {rest rest' : List Char} (h : Longest canonical o rest.head?)
    (ho' : o' ∈ octets canonical) (heq : o ++ rest = o' ++ '.' :: rest') :
    o = o' ∧ rest = '.' :: rest' := by
  obtain rfl := eq_of_longest h ho' (fun c hc => by obtain rfl := Option.some.inj hc; rfl) heq
  exact ⟨rfl, List.append_cancel_left heq⟩

theorem no_octet {cs rest : List Char} (h : ∀ c ∈ cs.head?, c.isDigit = false)
    (ho : o ∈ octets canonical) : cs ≠ o ++ rest := by
  rintro rfl
  cases o with
  | nil => exact ne_nil_of_mem_octets ho rfl
  | cons c o =>
    have hdigit := isDigit_of_mem_octets ho c List.mem_cons_self
    rw [h c rfl] at hdigit
    simp at hdigit

/-- Octets begin with a digit, whatever the number of points between them. -/
theorem Joined.exists_octet {more : Nat} {cs : List Char} (h : Joined canonical more cs) :
    ∃ o rest, o ∈ octets canonical ∧ cs = o ++ rest := by
  cases more with
  | zero => exact ⟨cs, [], h, (List.append_nil cs).symm⟩
  | succ more =>
    obtain ⟨o, rest, ho, -, rfl⟩ := h
    exact ⟨o, '.' :: rest, ho, rfl⟩

/-! ## The recognizer -/

variable {r' : Reader} {more : Nat} {reading : Reading × Reader}

/-- A reading of `more + 1` octets that end, or of the whole word if there are none. -/
def Decides (canonical : Bool) (more : Nat) (r : Reader) (reading : Reading × Reader) : Prop :=
  (∃ cs, reading.1 = .accepted ∧ r.Reads cs reading.2 ∧ Joined canonical more cs ∧
      Ends reading.2.ahead.head?) ∨
    (∃ flaw, reading.1 = .malformed flaw) ∧
      r.Reads (r.ahead.takeWhile CharClass.inWord) reading.2 ∧
      ∀ cs rest, r.ahead = cs ++ rest → Joined canonical more cs → ¬Ends rest.head?

/-- The rest of the word is read from a flaw on. -/
theorem decides_flawed (flaw : Flaw) (h : r.Reads o r') (ho : ∀ c ∈ o, CharClass.inWord c = true)
    (hnone : ∀ cs rest, r.ahead = cs ++ rest → Joined canonical more cs → ¬Ends rest.head?) :
    Decides canonical more r (flawedWord .plain flaw r') :=
  .inr ⟨⟨flaw, rfl⟩, h.trans_takeWhile ho (Reader.reads_acceptWhile _ h.start_le), hnone⟩

/-- There is no address where no digit is. -/
theorem decides_missing (flaw : Flaw) (h : r.Reads [] r')
    (hnone : ∀ c ∈ r.ahead.head?, c.isDigit = false) :
    Decides canonical more r (flawedWord .plain flaw r') := by
  refine decides_flawed flaw h (by simp) fun cs rest hcs hmem => ?_
  obtain ⟨o, tail, ho, rfl⟩ := hmem.exists_octet
  rw [List.append_assoc] at hcs
  exact absurd hcs (no_octet hnone ho)

/-- Behind the last octet, the address ends, or there is none. -/
theorem decides_readEnd (h : r.Reads o r') (hlongest : Longest canonical o r'.ahead.head?) :
    Decides canonical 0 r (readEnd .plain r') := by
  obtain ⟨hpeek, hreads⟩ := Reader.reads_peek h.start_le
  have hall := h.trans hreads
  have hahead := hreads.ahead_nil
  rw [List.append_nil] at hall
  simp only [readEnd, Mode.plain_andThen, Mode.plain_ret, Mode.plain_peek, hpeek]
  split
  · next hdue =>
    refine decides_flawed _ hall (inWord_of_mem_octets hlongest.1) fun cs rest hcs hmem hends => ?_
    -- The address would be the octet that has been read, which does not end.
    rw [h.ahead_eq] at hcs
    obtain rfl := eq_of_longest hlongest hmem (fun c hc => (hends c hc).1) hcs
    rw [List.append_cancel_left hcs] at hdue
    obtain ⟨c, hc, hdue⟩ := (Option.any_eq_true _ _).1 hdue
    obtain ⟨hdigit, hpoint⟩ := hends c hc
    simp [hdigit, hpoint] at hdue
  · next hdue =>
    refine .inl ⟨o, rfl, hall, hlongest.1, fun c hc => ?_⟩
    rw [← hahead] at hc
    rw [Option.mem_def.1 hc] at hdue
    simpa using hdue

/-- Where a point is behind an octet, the others decide. -/
theorem Decides.of_point (h : r.Reads o r') (hlongest : Longest canonical o r'.ahead.head?)
    {r'' : Reader} (hpoint : r'.Reads ['.'] r'') (hdecides : Decides canonical more r'' reading) :
    Decides canonical (more + 1) r reading := by
  have hall := h.trans hpoint
  rcases hdecides with ⟨cs, hfst, hreads, hmem, hends⟩ | ⟨hflaw, hreads, hnone⟩
  · refine .inl ⟨o ++ '.' :: cs, hfst, ?_, ⟨o, cs, hlongest.1, hmem, rfl⟩, hends⟩
    have hwhole := hall.trans hreads
    rwa [List.append_assoc] at hwhole
  · have hword := CharClass.inWord_append_point (inWord_of_mem_octets hlongest.1)
    refine .inr ⟨hflaw, hall.trans_takeWhile hword hreads, ?_⟩
    rintro _ rest hcs ⟨o', cs, ho', hmem, rfl⟩
    -- The address would begin with the octet that has been read.
    rw [List.append_assoc, List.cons_append, h.ahead_eq] at hcs
    obtain ⟨rfl, hrest⟩ := eq_of_longest_of_point hlongest ho' hcs
    rw [hpoint.ahead_eq] at hrest
    exact hnone cs rest (List.cons.inj hrest).2 hmem

/-- There is no address where no point is behind an octet that is not the last. -/
theorem decides_unended (flaw : Flaw) (h : r.Reads o r')
    (hlongest : Longest canonical o r'.ahead.head?) {r'' : Reader} (hreads : r'.Reads [] r'')
    (hnext : ∀ c ∈ r''.ahead.head?, c ≠ '.') :
    Decides canonical (more + 1) r (flawedWord .plain flaw r'') := by
  have hall := h.trans hreads
  rw [List.append_nil] at hall
  refine decides_flawed flaw hall (inWord_of_mem_octets hlongest.1) ?_
  rintro _ rest hcs ⟨o', cs, ho', hmem, rfl⟩
  rw [List.append_assoc, List.cons_append, h.ahead_eq] at hcs
  obtain ⟨rfl, hrest⟩ := eq_of_longest_of_point hlongest ho' hcs
  rw [hreads.ahead_nil] at hrest
  rw [hrest] at hnext
  exact absurd rfl (hnext '.' rfl)

/-- The recognizer decides whether there are `more + 1` octets that end. -/
theorem decides_readOctets (canonical : Bool) (index more : Nat) (h : r.start ≤ r.pos) :
    Decides canonical more r (readOctets .plain canonical index more r) := by
  induction more generalizing index r with
  | zero =>
    rcases reads_readOctet canonical h with ⟨o, hfst, hreads, hlongest⟩ | ⟨hfst, hreads, hnone⟩
    · simp only [readOctets, Mode.plain_andThen, hfst, if_true]
      exact decides_readEnd hreads hlongest
    · simp only [readOctets, Mode.plain_andThen, hfst]
      exact decides_missing _ hreads hnone
  | succ more ih =>
    rcases reads_readOctet canonical h with ⟨o, hfst, hreads, hlongest⟩ | ⟨hfst, hreads, hnone⟩
    · simp only [readOctets, Mode.plain_andThen, Mode.plain_acceptChar, hfst, if_true]
      rcases Reader.reads_acceptChar (· = '.') hreads.start_le with
        ⟨c, hc, hpoint, hreads'⟩ | ⟨hpoint, hreads', hnext⟩
      · obtain rfl : c = '.' := of_decide_eq_true hc
        simp only [hpoint, if_true]
        exact .of_point hreads hlongest hreads' (ih (index + 1) hreads'.start_le)
      · simp only [hpoint]
        exact decides_unended _ hreads hlongest hreads' fun c hc => of_decide_eq_false (hnext c hc)
    · simp only [readOctets, Mode.plain_andThen, hfst]
      exact decides_missing _ hreads hnone

/-- The recognizer accepts an address that ends, and if there is none, it reads the
    whole word. -/
theorem decides_read (canonical : Bool) (h : r.start ≤ r.pos)
    (hdigit : r.ahead.head?.any Char.isDigit = true) :
    Decides canonical (octetCount - 1) r (read .plain canonical r) := by
  obtain ⟨hpeek, hreads⟩ := Reader.reads_peek h
  have hahead := hreads.ahead_nil
  simp only [read, Mode.plain_andThen, Mode.plain_peek, hpeek, hdigit, if_true]
  rcases decides_readOctets canonical 1 (octetCount - 1) hreads.start_le with
    ⟨cs, hfst, hreads', hmem, hends⟩ | ⟨hflaw, hreads', hnone⟩
  · exact .inl ⟨cs, hfst, hreads.trans hreads', hmem, hends⟩
  · rw [← hahead] at hreads' hnone
    exact .inr ⟨hflaw, hreads.trans hreads', hnone⟩

/-! ## Unique reading -/

theorem Joined.inWord {cs : List Char} (h : Joined canonical more cs) :
    ∀ c ∈ cs, CharClass.inWord c = true := by
  induction more generalizing cs with
  | zero => exact inWord_of_mem_octets h
  | succ more ih =>
    obtain ⟨o, rest, ho, hrest, rfl⟩ := h
    intro c hc
    rcases List.mem_append.1 hc with hc | hc
    · exact inWord_of_mem_octets ho c hc
    · rcases List.mem_cons.1 hc with rfl | hc
      · rfl
      · exact ih hrest c hc

/-- An address begins with a digit. -/
theorem Joined.head?_eq {cs : List Char} (h : Joined canonical more cs) :
    ∃ c ∈ cs.head?, c.isDigit = true := by
  obtain ⟨o, rest, ho, rfl⟩ := h.exists_octet
  obtain ⟨c, o, rfl⟩ := List.exists_cons_of_ne_nil (ne_nil_of_mem_octets ho)
  exact ⟨c, rfl, isDigit_of_mem_octets ho c List.mem_cons_self⟩

/-- A text begins with at most one address that ends. -/
theorem Joined.unique {cs cs' rest rest' : List Char}
    (h : Joined canonical more cs) (h' : Joined canonical more cs')
    (hrest : ∀ c ∈ rest.head?, c.isDigit = false) (hrest' : ∀ c ∈ rest'.head?, c.isDigit = false)
    (heq : cs ++ rest = cs' ++ rest') : cs = cs' := by
  -- An octet is all the digits at the beginning of the text.
  have hrun {o after : List Char} (ho : o ∈ octets canonical)
      (hafter : ∀ c ∈ after.head?, c.isDigit = false) :
      (o ++ after).takeWhile Char.isDigit = o :=
    Reader.IsRun.takeWhile_eq ⟨isDigit_of_mem_octets ho, hafter⟩
  induction more generalizing cs cs' with
  | zero => rw [← hrun h hrest, heq, hrun h' hrest']
  | succ more ih =>
    obtain ⟨o, tail, ho, htail, rfl⟩ := h
    obtain ⟨o', tail', ho', htail', rfl⟩ := h'
    have hpoint (after : List Char) : ∀ c ∈ ('.' :: after).head?, c.isDigit = false := by
      intro c hc
      obtain rfl := Option.some.inj hc
      rfl
    rw [List.append_assoc, List.append_assoc] at heq
    have hoctet : o = o' := by
      rw [← hrun ho (hpoint (tail ++ rest)), ← List.cons_append, heq, List.cons_append,
        hrun ho' (hpoint (tail' ++ rest'))]
    subst hoctet
    have htails := (List.cons.inj (List.append_cancel_left heq)).2
    rw [ih htail htail' htails]

end StateLexer.Address
