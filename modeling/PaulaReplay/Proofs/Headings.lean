/-
  Headings: the marks that music begins with.

  Music begins with three fields of four, four and one bytes.  Their bytes are a
  text, and it is this text that tells the kind.

  * `Spells`: a text stands in a byte string; `spells_four_iff`,
    `spells_three_iff`: the fields tell it;
  * `IsEarly`, `SongMarked`: the texts of the kinds; `probeMusic_eq`: the kind
    of music by its text;
  * `probeMusic_law`: the old kind is the one without a song mark, whatever
    stands in the place of the mark's dash, as long as there is no half of a
    song mark;
  * `probeMusic_plusHead`: a song mark with another sign for its dash is refused.
-/
import Mathlib.Tactic.Tauto
import PaulaReplay.Proofs.Pieces
import PaulaReplay.Proofs.Words
import PaulaReplay.Tune.Format

namespace PaulaReplay

open Bytes

variable {b : ByteArray} {i start : Nat}

/-! ## Fields -/

/-- A field of four bytes is the word of them. -/
theorem u32?_eq_some_iff {v : UInt32} : u32? b i = some v ↔ ∃ x y z t, u8? b i = some x ∧
    u8? b (i + 1) = some y ∧ u8? b (i + 2) = some z ∧ u8? b (i + 3) = some t ∧
      (Word.ofBytes x y z t).bits = v := by
  simp only [u32?_eq_u8?, Option.bind_eq_some_iff, Option.map_eq_some_iff, Word.ofBytes,
    exists_and_left]

theorem exists_u32? (h : i + 4 ≤ b.size) : ∃ v, u32? b i = some v :=
  Option.ne_none_iff_exists'.1 fun hnone => Nat.not_le.2 (u32?_eq_none_iff.1 hnone) h

/-- The number of four characters of one byte each. -/
theorem mark_eq_ofBytes {c d e f : Char} (h : [c, d, e, f].all (·.toNat < 256)) :
    mark c d e f = (Word.ofBytes c.toUInt8 d.toUInt8 e.toUInt8 f.toUInt8).bits := by
  have hbyte : ∀ x ∈ [c, d, e, f], x.toUInt8.toUInt32 = x.val := fun x hx => by
    refine UInt32.toNat_inj.1 ?_
    rw [UInt8.toNat_toUInt32]
    exact Nat.mod_eq_of_lt (of_decide_eq_true (List.all_eq_true.1 h x hx))
  simp only [List.forall_mem_cons] at hbyte
  obtain ⟨hc, hd, he, hf, -⟩ := hbyte
  rw [mark, Word.ofBytes, hc, hd, he, hf]

/-! ## Texts -/

/-- A text of characters of one byte each stands at `i`. -/
def Spells (b : ByteArray) : Nat → List Char → Prop
  | _, [] => True
  | i, c :: text => u8? b i = some c.toUInt8 ∧ Spells b (i + 1) text

instance decidableSpells (b : ByteArray) : ∀ (i : Nat) (text : List Char),
    Decidable (Spells b i text)
  | _, [] => inferInstanceAs (Decidable True)
  | i, c :: text =>
    have := decidableSpells b (i + 1) text
    inferInstanceAs (Decidable (u8? b i = some c.toUInt8 ∧ Spells b (i + 1) text))

theorem spells_append : ∀ (i : Nat) (s t : List Char),
    Spells b i (s ++ t) ↔ Spells b i s ∧ Spells b (i + s.length) t
  | _, [], _ => (and_iff_right trivial).symm
  | i, c :: s, t => by
    rw [List.cons_append, Spells, Spells, spells_append (i + 1) s t, and_assoc, List.length_cons,
      Nat.add_assoc i 1, Nat.add_comm 1]

/-- A field of four bytes tells the text of its bytes. -/
theorem spells_four_iff {v : UInt32} {c d e f : Char} (hv : u32? b i = some v)
    (h : [c, d, e, f].all (·.toNat < 256)) : Spells b i [c, d, e, f] ↔ v = mark c d e f := by
  obtain ⟨x, y, z, t, hx, hy, hz, ht, rfl⟩ := u32?_eq_some_iff.1 hv
  rw [mark_eq_ofBytes h, Word.ofBytes_inj]
  simp only [Spells, Nat.add_assoc, Nat.reduceAdd, hx, hy, hz, ht, Option.some_inj, and_true]

/-- Without its first byte it tells the text of the other three. -/
theorem spells_three_iff {v : UInt32} {d e f : Char} (hv : u32? b i = some v)
    (h : [d, e, f].all (·.toNat < 256)) :
    Spells b (i + 1) [d, e, f] ↔ v &&& 0x00ffffff = mark '\x00' d e f := by
  have hall : ['\x00', d, e, f].all (·.toNat < 256) := h
  have hzero : '\x00'.toUInt8 = 0 := rfl
  obtain ⟨x, y, z, t, -, hy, hz, ht, rfl⟩ := u32?_eq_some_iff.1 hv
  rw [mark_eq_ofBytes hall, Word.ofBytes_and_mask, Word.ofBytes_inj, hzero]
  simp only [Spells, Nat.add_assoc, Nat.reduceAdd, hy, hz, ht, Option.some_inj, and_true, true_and]

theorem spells_one_iff {v : UInt8} {c : Char} (hv : u8? b i = some v) :
    Spells b i [c] ↔ v = c.toUInt8 := by
  rw [Spells, hv, Option.some_inj]
  exact and_iff_left trivial

/-! ## Marks -/

/-- The first mark stands at `start`, and neither half of a song mark behind the
    sign that follows it. -/
def IsEarly (b : ByteArray) (start : Nat) : Prop :=
  Spells b start "TFMX".toList ∧
    ¬ Spells b (start + 5) "SON".toList ∧ ¬ Spells b (start + 8) "G".toList

/-- One of the marks of a song stands at `start`. -/
def SongMarked (b : ByteArray) (start : Nat) : Prop :=
  Spells b start "TFMX-SONG".toList ∨ Spells b start "TFMX_SONG".toList ∨
    Spells b start "tfmxsong".toList

/-- The first mark stands at `start`, and just one half of a song mark behind
    the sign that follows it. -/
def HalfMarked (b : ByteArray) (start : Nat) : Prop :=
  Spells b start "TFMX".toList ∧
    ¬ (Spells b (start + 5) "SON".toList ↔ Spells b (start + 8) "G".toList)

instance : Decidable (IsEarly b start) := inferInstanceAs (Decidable (_ ∧ _))

instance : Decidable (SongMarked b start) := inferInstanceAs (Decidable (_ ∨ _))

instance : Decidable (HalfMarked b start) := inferInstanceAs (Decidable (_ ∧ _))

theorem spells_dashed : Spells b start "TFMX-SONG".toList ↔ Spells b start ['T', 'F', 'M', 'X'] ∧
    Spells b (start + 4) ['-', 'S', 'O', 'N'] ∧ Spells b (start + 8) ['G'] :=
  (spells_append start ['T', 'F', 'M', 'X'] _).trans
    (and_congr_right fun _ => spells_append (start + 4) ['-', 'S', 'O', 'N'] _)

theorem spells_barred : Spells b start "TFMX_SONG".toList ↔ Spells b start ['T', 'F', 'M', 'X'] ∧
    Spells b (start + 4) ['_', 'S', 'O', 'N'] ∧ Spells b (start + 8) ['G'] :=
  (spells_append start ['T', 'F', 'M', 'X'] _).trans
    (and_congr_right fun _ => spells_append (start + 4) ['_', 'S', 'O', 'N'] _)

theorem spells_small : Spells b start "tfmxsong".toList ↔ Spells b start ['t', 'f', 'm', 'x'] ∧
    Spells b (start + 4) ['s', 'o', 'n', 'g'] :=
  spells_append start ['t', 'f', 'm', 'x'] _

/-- No text has marks of both kinds. -/
theorem IsEarly.not_songMarked (h : IsEarly b start) : ¬ SongMarked b start := by
  obtain ⟨hfirst, -, hlast⟩ := h
  rw [SongMarked, spells_dashed, spells_barred, spells_small]
  rintro (⟨-, -, hg⟩ | ⟨-, -, hg⟩ | ⟨hsmall, -⟩)
  · exact hlast hg
  · exact hlast hg
  · exact absurd (Option.some.inj (hfirst.1.symm.trans hsmall.1)) (by decide)

/-- Without half a song mark the old kind is the one without a whole one. -/
theorem isEarly_iff (h : ¬ HalfMarked b start) : IsEarly b start ↔
    Spells b start "TFMX".toList ∧ ¬ Spells b (start + 5) "SONG".toList := by
  have hwhole : Spells b (start + 5) "SONG".toList ↔
      Spells b (start + 5) "SON".toList ∧ Spells b (start + 8) "G".toList :=
    spells_append (start + 5) ['S', 'O', 'N'] _
  rw [HalfMarked] at h
  rw [IsEarly, hwhole]
  tauto

section Fields

variable {mark1 mark2 : UInt32} {mark3 : UInt8} (h1 : u32? b start = some mark1)
  (h2 : u32? b (start + 4) = some mark2) (h3 : u8? b (start + 8) = some mark3)

include h1 h2 h3

theorem marksEarly_iff : marksEarly mark1 mark2 mark3 = true ↔ IsEarly b start := by
  have hfirst : Spells b start "TFMX".toList ↔ mark1 = mark 'T' 'F' 'M' 'X' :=
    spells_four_iff h1 (by decide)
  have hhalf : Spells b (start + 5) "SON".toList ↔
      mark2 &&& 0x00ffffff = mark '\x00' 'S' 'O' 'N' := spells_three_iff h2 (by decide)
  have hlast : Spells b (start + 8) "G".toList ↔ mark3 = 'G'.toUInt8 := spells_one_iff h3
  simp only [marksEarly, IsEarly, hfirst, hhalf, hlast, Bool.and_eq_true, beq_iff_eq, bne_iff_ne,
    ne_eq]

theorem marksSong_iff : marksSong mark1 mark2 mark3 = true ↔ SongMarked b start := by
  have hfirst : Spells b start ['T', 'F', 'M', 'X'] ↔ mark1 = mark 'T' 'F' 'M' 'X' :=
    spells_four_iff h1 (by decide)
  have hdash : Spells b (start + 4) ['-', 'S', 'O', 'N'] ↔ mark2 = mark '-' 'S' 'O' 'N' :=
    spells_four_iff h2 (by decide)
  have hbar : Spells b (start + 4) ['_', 'S', 'O', 'N'] ↔ mark2 = mark '_' 'S' 'O' 'N' :=
    spells_four_iff h2 (by decide)
  have hlast : Spells b (start + 8) ['G'] ↔ mark3 = 'G'.toUInt8 := spells_one_iff h3
  have hsmall : Spells b start ['t', 'f', 'm', 'x'] ↔ mark1 = mark 't' 'f' 'm' 'x' :=
    spells_four_iff h1 (by decide)
  have hsong : Spells b (start + 4) ['s', 'o', 'n', 'g'] ↔ mark2 = mark 's' 'o' 'n' 'g' :=
    spells_four_iff h2 (by decide)
  rw [SongMarked, spells_dashed, spells_barred, spells_small, hfirst, hdash, hbar, hlast, hsmall,
    hsong]
  simp only [marksSong, Bool.or_eq_true, Bool.and_eq_true, beq_iff_eq, and_or_left, or_and_right,
    and_assoc, or_assoc]

end Fields

/-! ## The kind of music -/

/-- The kind of music by its text. -/
theorem probeMusic_eq (h : start + 9 ≤ b.size) : probeMusic b start =
    if IsEarly b start then .ok .early
    else if SongMarked b start then
      .ok (if hasTimeShare b start then .sevenVoices else .professional)
    else .error (.format .badMagic) := by
  obtain ⟨mark1, h1⟩ := exists_u32? (b := b) (i := start) (by omega)
  obtain ⟨mark2, h2⟩ := exists_u32? (b := b) (i := start + 4) (by omega)
  have h3 := u8?_of_lt (b := b) (i := start + 8) (by omega)
  rw [probeMusic, h1, h2, h3]
  simp only [orShortRead, bind, Except.bind, pure, Except.pure, throw, throwThe,
    MonadExceptOf.throw, marksEarly_iff h1 h2 h3, marksSong_iff h1 h2 h3]
  split
  · rfl
  · split
    · rfl
    · next hsong =>
      rw [if_pos (Decidable.not_not.1 hsong)]
      split <;> rfl

/-- Music is of the kinds for four and seven voices if, and only if, it begins
    with a mark of a song, and the time share tells these two.  As long as there
    is no half of a song mark, it is of the old kind if, and only if, it begins
    with the first mark and no song mark follows, whatever its dash would be;
    and it is refused in all other cases. -/
theorem probeMusic_law (h : start + 9 ≤ b.size) :
    (probeMusic b start = .ok .professional ∨ probeMusic b start = .ok .sevenVoices ↔
      SongMarked b start) ∧
    (probeMusic b start = .ok .sevenVoices ↔ SongMarked b start ∧ hasTimeShare b start = true) ∧
    (¬ HalfMarked b start →
      (probeMusic b start = .ok .early ↔
        Spells b start "TFMX".toList ∧ ¬ Spells b (start + 5) "SONG".toList) ∧
      (probeMusic b start = .error (.format .badMagic) ↔ ¬ SongMarked b start ∧
        ¬ (Spells b start "TFMX".toList ∧ ¬ Spells b (start + 5) "SONG".toList))) := by
  have hlaw : (probeMusic b start = .ok .professional ∨ probeMusic b start = .ok .sevenVoices ↔
      SongMarked b start) ∧
      (probeMusic b start = .ok .sevenVoices ↔ SongMarked b start ∧ hasTimeShare b start = true) ∧
      (probeMusic b start = .ok .early ↔ IsEarly b start) ∧
      (probeMusic b start = .error (.format .badMagic) ↔
        ¬ SongMarked b start ∧ ¬ IsEarly b start) := by
    rw [probeMusic_eq h]
    by_cases hearly : IsEarly b start
    · simp [hearly, hearly.not_songMarked]
    · by_cases hsong : SongMarked b start
      · cases hshare : hasTimeShare b start <;> simp [hearly, hsong]
      · simp [hearly, hsong]
  obtain ⟨hsong, hseven, hearly, hrefused⟩ := hlaw
  refine ⟨hsong, hseven, fun hhalf => ?_⟩
  rw [← isEarly_iff hhalf]
  exact ⟨hearly, hrefused⟩

/-- The shortest head of the old kind. -/
def earlyHead : ByteArray := ⟨#[0x54, 0x46, 0x4d, 0x58, 0x20, 0x31, 0x2e, 0x35, 0x20]⟩

theorem probeMusic_earlyHead : 0 + 9 ≤ earlyHead.size ∧ ¬ HalfMarked earlyHead 0 ∧
    probeMusic earlyHead 0 = .ok .early := by
  have hsize : 0 + 9 ≤ earlyHead.size := by decide
  have hhalf : ¬ HalfMarked earlyHead 0 := by decide
  exact ⟨hsize, hhalf, (((probeMusic_law hsize).2.2 hhalf).1).2 (by decide)⟩

/-- A head with a song mark that has a plus sign for its dash. -/
def plusHead : ByteArray := ⟨#[0x54, 0x46, 0x4d, 0x58, 0x2b, 0x53, 0x4f, 0x4e, 0x47]⟩

/-- It is refused, though neither a dash nor a bar makes a song mark of it. -/
theorem probeMusic_plusHead : 0 + 9 ≤ plusHead.size ∧ Spells plusHead 0 "TFMX".toList ∧
    ¬ Spells plusHead 4 "-SONG".toList ∧ ¬ Spells plusHead 4 "_SONG".toList ∧
      ¬ HalfMarked plusHead 0 ∧ probeMusic plusHead 0 = .error (.format .badMagic) := by
  refine ⟨by decide, by decide, by decide, by decide, by decide, ?_⟩
  rw [probeMusic_eq (by decide)]
  rfl

end PaulaReplay
