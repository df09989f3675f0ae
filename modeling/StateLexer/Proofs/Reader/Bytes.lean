import StateLexer.Proofs.Reader.Ahead
import StateLexer.Proofs.Text.Encoded

/-!
# ASCII characters among bytes

An ASCII character is encoded as the byte of the same number, and that byte is part of no
other encoding. So wherever a reader stands, even in the middle of a rune, what it finds
of ASCII characters can be told from the bytes that are left (`Reader.bytes`), without
decoding them:

* `any_head?_bytes`: whether the next character belongs to a class;
* `Reads.bytes_eq`: the characters that a move goes over, as bytes;
* `exists_reads_of_bytes`: bytes that are ASCII, as characters;
* `Reads.takeWhile_bytes`: a maximal run of the characters of a class.
-/

namespace StateLexer

/-- All characters that satisfy `p` are ASCII characters. -/
def AsciiOnly (p : Char → Bool) : Prop :=
  ∀ c, p c = true → c.val < 0x80

/-- The byte encodes an ASCII character that satisfies `p`. -/
def Utf8.encodes (p : Char → Bool) (b : UInt8) : Bool :=
  p (Char.ofUInt8 b)

variable {c : Char} {cs : List Char} {p : Char → Bool} {b : UInt8}

namespace Reader

variable {r r' : Reader}

/-- The bytes that are left. -/
def bytes (r : Reader) : List UInt8 :=
  r.input.data.toList.drop r.pos

theorem head?_bytes (r : Reader) : r.bytes.head? = r.input[r.pos]? := by
  rw [bytes, List.head?_drop, Utf8.getElem?_toList]

/-- The next character is an ASCII character if the next byte is. -/
theorem head?_ahead_of_ascii (hc : c.val < 0x80) :
    r.ahead.head? = some c ↔ r.bytes.head? = some c.toUInt8 := by
  rw [head?_bytes]
  constructor
  · intro h
    obtain ⟨u, hu, rfl⟩ : ∃ u, r.units.head? = some u ∧ u.1 = c := by
      rw [ahead, List.head?_map] at h
      exact Option.map_eq_some_iff.1 h
    obtain ⟨us, hus⟩ := List.head?_eq_some_iff.1 hu
    obtain ⟨-, rfl⟩ := Utf8.Decoding.unitsFrom_eq_cons hus
    exact Utf8.byte_of_runeAt hc
  · intro h
    obtain ⟨hlt, -⟩ := getElem?_eq_some_iff.1 h
    rw [ahead, units, Utf8.Decoding.unitsFrom_of_lt hlt, List.map_cons, List.head?_cons]
    have hrune := Utf8.runeAt_of_byte h (Utf8.lt_of_toUInt8 hc)
    change some (Utf8.runeAt r.input r.pos).1 = some c
    rw [hrune, Utf8.ofUInt8_toUInt8 hc]

/-- Whether the next character belongs to a class can be told from the next byte. -/
theorem any_head?_bytes (hp : AsciiOnly p) (r : Reader) :
    r.bytes.head?.any (Utf8.encodes p) = r.ahead.head?.any p := by
  rw [Bool.eq_iff_iff, Option.any_eq_true, Option.any_eq_true]
  constructor
  · rintro ⟨b, hb, hpb⟩
    have hascii := hp _ hpb
    refine ⟨Char.ofUInt8 b, (head?_ahead_of_ascii hascii).2 ?_, hpb⟩
    rw [Utf8.toUInt8_ofUInt8, hb]
  · rintro ⟨c, hc, hpc⟩
    have hascii := hp c hpc
    refine ⟨c.toUInt8, (head?_ahead_of_ascii hascii).1 hc, ?_⟩
    rw [Utf8.encodes, Utf8.ofUInt8_toUInt8 hascii, hpc]

/-! ## Moves over ASCII characters -/

theorem bytes_eq_cons (h : r.bytes.head? = some b) (hinput : r'.input = r.input)
    (hpos : r'.pos = r.pos + 1) : r.bytes = b :: r'.bytes := by
  obtain ⟨rest, hrest⟩ := List.head?_eq_some_iff.1 h
  have htail : r'.bytes = r.bytes.tail := by
    rw [bytes, bytes, hinput, hpos, List.tail_drop]
  rw [htail, hrest, List.tail_cons]

/-- A move over ASCII characters goes over their bytes. -/
theorem Reads.bytes_eq (h : r.Reads cs r') (hcs : ∀ c ∈ cs, c.val < 0x80) :
    r.bytes = cs.map Char.toUInt8 ++ r'.bytes := by
  have hpos := h.pos_eq hcs
  obtain ⟨-, hinput, -, us, rfl, hunits, -⟩ := h
  induction us generalizing r with
  | nil => rw [bytes, bytes, hinput, hpos]; rfl
  | cons u us ih =>
    have hascii := hcs u.1 List.mem_cons_self
    have hwidth := (Utf8.unitsFrom_of_ascii hunits hascii).1
    have hcut : r.units = [u] ++ (us ++ r'.units) := hunits
    have hrest := Utf8.Decoding.unitsFrom_add_span hcut
    have hhead : r.bytes.head? = some u.1.toUInt8 := by
      refine (head?_ahead_of_ascii hascii).1 ?_
      rw [ahead, hunits]
      rfl
    rw [Utf8.span_cons, Utf8.span_nil, hwidth] at hrest
    have hstep : ({ r with pos := r.pos + 1 } : Reader).bytes =
        (us.map Prod.fst).map Char.toUInt8 ++ r'.bytes := by
      refine ih hinput (fun c hc => hcs c (List.mem_cons_of_mem _ hc)) ?_ hrest
      rw [hpos, List.map_cons, List.length_cons]
      exact Nat.add_right_comm _ _ 1
    have hcons : r.bytes = u.1.toUInt8 :: ({ r with pos := r.pos + 1 } : Reader).bytes :=
      bytes_eq_cons hhead rfl rfl
    rw [hcons, hstep]
    rfl

/-- Bytes that are ASCII characters can be read as such. -/
theorem exists_reads_of_bytes {after : List UInt8} (h : r.start ≤ r.pos)
    (hcs : ∀ c ∈ cs, c.val < 0x80) (hbytes : r.bytes = cs.map Char.toUInt8 ++ after) :
    ∃ r', r.Reads cs r' ∧ r'.bytes = after := by
  induction cs generalizing r with
  | nil => exact ⟨r, reads_refl h, hbytes⟩
  | cons c cs ih =>
    have hascii := hcs c List.mem_cons_self
    have hhead : r.ahead.head? = some c := by
      rw [head?_ahead_of_ascii hascii, hbytes]
      rfl
    obtain ⟨rest, hahead⟩ := List.head?_eq_some_iff.1 hhead
    have hreads := (next_of_cons h hahead).2
    have hnext := hreads.bytes_eq fun d hd => by rwa [List.mem_singleton.1 hd]
    rw [hbytes] at hnext
    obtain ⟨r', hreads', hafter⟩ := ih hreads.start_le
      (fun d hd => hcs d (List.mem_cons_of_mem _ hd)) (List.cons.inj hnext).2.symm
    exact ⟨r', hreads.trans hreads', hafter⟩

/-- A maximal run of the characters of a class is one of the bytes that encode them. -/
theorem Reads.takeWhile_bytes (hp : AsciiOnly p) (h : r.Reads (r.ahead.takeWhile p) r') :
    r.bytes.takeWhile (Utf8.encodes p) = (r.ahead.takeWhile p).map Char.toUInt8 := by
  obtain ⟨hrun, hnext⟩ := h.isRun
  rw [h.bytes_eq fun c hc => hp c (hrun c hc), List.takeWhile_append_of_pos]
  · have hhead : r'.bytes.head?.any (Utf8.encodes p) = false := by
      rw [any_head?_bytes hp, Option.any_eq_false]
      exact hnext
    cases hbytes : r'.bytes with
    | nil => rw [List.takeWhile_nil, List.append_nil]
    | cons b bs =>
      rw [hbytes, List.head?_cons, Option.any_some] at hhead
      rw [List.takeWhile_cons_of_neg (by simp [hhead]), List.append_nil]
  · intro b hb
    obtain ⟨c, hc, rfl⟩ := List.mem_map.1 hb
    rw [Utf8.encodes, Utf8.ofUInt8_toUInt8 (hp c (hrun c hc)), hrun c hc]

/-- The characters of a maximal run are those that its bytes encode. -/
theorem map_takeWhile_bytes (hp : AsciiOnly p) (h : r.start ≤ r.pos) :
    (r.bytes.takeWhile (Utf8.encodes p)).map Char.ofUInt8 = r.ahead.takeWhile p := by
  have hreads := reads_acceptWhile p h
  rw [hreads.takeWhile_bytes hp, List.map_map]
  exact (List.map_congr_left fun c hc => Utf8.ofUInt8_toUInt8 (hp c (hreads.isRun.1 c hc))).trans
    (List.map_id _)

/-- Behind a maximal run, the bytes begin with an ASCII character if the characters do. -/
theorem head?_dropWhile_bytes (hp : AsciiOnly p) (h : r.start ≤ r.pos) (hc : c.val < 0x80) :
    (r.bytes.dropWhile (Utf8.encodes p)).head? = some c.toUInt8 ↔
      (r.ahead.dropWhile p).head? = some c := by
  have hreads := reads_acceptWhile p h
  have hcut := hreads.bytes_eq fun d hd => hp d (hreads.isRun.1 d hd)
  rw [← hreads.takeWhile_bytes hp] at hcut
  have hrest := List.append_cancel_left (List.takeWhile_append_dropWhile.trans hcut)
  rw [hrest, ← hreads.ahead_of_takeWhile, head?_ahead_of_ascii hc]

end Reader

end StateLexer
