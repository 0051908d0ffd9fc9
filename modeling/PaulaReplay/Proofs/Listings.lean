/-
  Listings: words that are written alike are played alike.

  The text of a word leaves nothing of it out but bit 6 of the first byte of a
  note that is played at once.  Such a note is told apart from others by bit 7,
  and its number is cut to six bits before it is played.

  * `Column.hex_inj`: a number is told by its hexadecimal digits;
  * `Word.settled` is a word without that bit, `Word.settled_eq_iff` says which
    words have it in common;
  * `Pattern.line_eq_iff`: they are the words of one text;
  * `Tracks.execute_settled`: the bit does not matter to a track;
  * `Score.ListsAs`: the patterns of two tunes read the same;
  * `listing_law`: texts, words and rows together.
-/
import PaulaReplay.Pattern.Listing
import PaulaReplay.Proofs.Playback
import PaulaReplay.Proofs.Pointers
import PaulaReplay.Proofs.Words

namespace PaulaReplay

/-! ## Columns -/

namespace Column

theorem toList_hex (k n : Nat) : (hex k n).toList =
    List.replicate (k - (Nat.toDigits 16 n).length) '0' ++ Nat.toDigits 16 n := by
  rw [hex, padded, String.toList_append, String.toList_ofList, String.toList_ofList,
    String.length_ofList]

theorem toList_hex_one {n : Nat} (h : n < 16) : (hex 1 n).toList = [n.digitChar] := by
  rw [toList_hex, Nat.toDigits_of_lt_base h]
  rfl

/-- The last digit comes off the end. -/
theorem toList_hex_succ (k n : Nat) :
    (hex (k + 2) n).toList = (hex (k + 1) (n / 16)).toList ++ [(n % 16).digitChar] := by
  rw [toList_hex, toList_hex]
  rcases Nat.lt_or_ge n 16 with h | h
  · have hzero : n / 16 = 0 := Nat.div_eq_of_lt h
    rw [hzero, Nat.toDigits_of_lt_base h, Nat.mod_eq_of_lt h, Nat.toDigits_of_lt_base (by decide)]
    exact congrArg (· ++ [n.digitChar]) (List.replicate_succ' (n := k))
  · have hlast : Nat.toDigits 16 n = Nat.toDigits 16 (n / 16) ++ [(n % 16).digitChar] :=
      Nat.toDigits_of_base_le (by decide) h
    rw [hlast, List.length_append, List.length_singleton, Nat.succ_sub_succ, List.append_assoc]

theorem digitChar_inj : ∀ m < 16, ∀ n < 16, Nat.digitChar m = Nat.digitChar n → m = n := by
  decide

theorem div_lt_pow {n k : Nat} (h : n < 16 ^ (k + 2)) : n / 16 < 16 ^ (k + 1) :=
  Nat.div_lt_of_lt_mul (by rwa [← Nat.pow_succ'])

theorem length_hex {k n : Nat} (h : n < 16 ^ (k + 1)) : (hex (k + 1) n).length = k + 1 := by
  induction k generalizing n with
  | zero =>
    rw [← String.length_toList, toList_hex_one (by simpa using h)]
    rfl
  | succ k ih =>
    rw [← String.length_toList, toList_hex_succ, List.length_append, String.length_toList,
      ih (div_lt_pow h)]
    rfl

/-- A number is told by its digits. -/
theorem hex_inj {k m n : Nat} (hm : m < 16 ^ (k + 1)) (hn : n < 16 ^ (k + 1))
    (h : hex (k + 1) m = hex (k + 1) n) : m = n := by
  have h := congrArg String.toList h
  induction k generalizing m n with
  | zero =>
    have hm : m < 16 := by simpa using hm
    have hn : n < 16 := by simpa using hn
    rw [toList_hex_one hm, toList_hex_one hn] at h
    exact digitChar_inj m hm n hn (List.singleton_inj.1 h)
  | succ k ih =>
    rw [toList_hex_succ, toList_hex_succ] at h
    obtain ⟨hrest, hlast⟩ := List.append_inj' h rfl
    have hdiv : m / 16 = n / 16 :=
      ih (div_lt_pow hm) (div_lt_pow hn) (String.toList_inj.1 hrest) hrest
    have hmod : m % 16 = n % 16 :=
      digitChar_inj _ (Nat.mod_lt m (by decide)) _ (Nat.mod_lt n (by decide))
        (List.singleton_inj.1 hlast)
    rw [← Nat.div_add_mod m 16, hdiv, hmod, Nat.div_add_mod]

end Column

/-! ## First bytes -/

/-- A first byte without bit 6 where that bit says nothing: in a note that is
    played at once. -/
def settledByte (t : UInt8) : UInt8 := if t < 0x80 then t &&& 0x3f else t

theorem settledByte_of_ge {t : UInt8} (h : ¬ t < 0x80) : settledByte t = t := if_neg h

/-- What holds of all numbers below 256 holds of all bytes. -/
theorem forall_byte {P : UInt8 → Prop} (h : ∀ n < 256, P (UInt8.ofNat n)) (t : UInt8) : P t := by
  simpa using h t.toNat t.toNat_lt

set_option maxRecDepth 2000 in
/-- Below 0x80 there are two bytes to each one that is settled. -/
theorem settledByte_of_lt : ∀ t : UInt8, t < 0x80 → settledByte t < 0x80 ∧
    (t = settledByte t ∨ t = settledByte t ^^^ 0x40) ∧ settledByte (t ^^^ 0x40) = settledByte t :=
  forall_byte (by decide)

theorem settledByte_eq_iff {t t' : UInt8} : settledByte t = settledByte t' ↔
    t = t' ∨ t' = t ^^^ 0x40 ∧ t < 0x80 ∧ t' < 0x80 := by
  constructor
  · intro h
    by_cases ht : t < 0x80 <;> by_cases ht' : t' < 0x80
    · have hflip : settledByte t' ^^^ 0x40 ^^^ 0x40 = settledByte t' := by
        rw [UInt8.xor_assoc, UInt8.xor_self, UInt8.xor_zero]
      rcases (settledByte_of_lt t ht).2.1 with hset | hset <;>
        rcases (settledByte_of_lt t' ht').2.1 with hset' | hset'
      · exact .inl (hset.trans (h.trans hset'.symm))
      · exact .inr ⟨hset'.trans (by rw [hset, h]), ht, ht'⟩
      · exact .inr ⟨hset'.trans (by rw [hset, h, hflip]), ht, ht'⟩
      · exact .inl (hset.trans (by rw [h, ← hset']))
    · rw [settledByte_of_ge ht'] at h
      exact absurd (h ▸ (settledByte_of_lt t ht).1) ht'
    · rw [settledByte_of_ge ht] at h
      exact absurd (h ▸ (settledByte_of_lt t' ht').1) ht
    · rw [settledByte_of_ge ht, settledByte_of_ge ht'] at h
      exact .inl h
  · rintro (rfl | ⟨rfl, ht, -⟩)
    · rfl
    · exact (settledByte_of_lt t ht).2.2.symm

namespace Pattern

/-- The bits of a way of playing. -/
def NoteKind.bits : NoteKind → UInt8
  | plain => 0
  | hold => 0x80
  | slide => 0xc0

set_option maxRecDepth 2000 in
/-- The instruction of a byte does not depend on that bit, and neither does the
    number of the note. -/
theorem ofByte_settledByte : ∀ t : UInt8,
    Instruction.ofByte (settledByte t) = Instruction.ofByte t ∧
      settledByte t &&& 0x3f = t &&& 0x3f :=
  forall_byte (by decide)

set_option maxRecDepth 2000 in
/-- A byte below 0x80 is a note that is played at once. -/
theorem ofByte_of_lt : ∀ t : UInt8, t < 0x80 → Instruction.ofByte t = .note .plain :=
  forall_byte (by decide)

set_option maxRecDepth 2000 in
/-- A first byte by the number of the note and the way of playing. -/
theorem settledByte_eq_or : ∀ t : UInt8,
    settledByte t = (t &&& 0x3f) ||| (NoteKind.ofByte t).bits :=
  forall_byte (by decide)

/-! ## Texts -/

/-- The first field of a text is told by its length. -/
theorem append_inj {s s' t t' : String} (hlen : s.length = s'.length) (h : s ++ t = s' ++ t') :
    s = s' ∧ t = t' := by
  have h := congrArg String.toList h
  simp only [String.toList_append] at h
  obtain ⟨hs, ht⟩ := List.append_inj h (by rw [String.length_toList, String.length_toList, hlen])
  exact ⟨String.toList_inj.1 hs, String.toList_inj.1 ht⟩

theorem length_noteName : ∀ k : Fin 12, noteNames[k].length = 2 := by
  decide

theorem noteName_inj : ∀ j k : Fin 12, noteNames[j] = noteNames[k] → j = k := by
  decide

theorem length_pitch : ∀ n < 64, (pitch n).length = 3 := by
  intro n hn
  have hdigit : ∀ k < 6, (Column.decimal 1 k).length = 1 := by
    decide
  rw [pitch, String.length_append, length_noteName, hdigit _ (by omega)]

/-- A note is told by its name and its octave. -/
theorem pitch_inj {m n : Nat} (hm : m < 64) (hn : n < 64) (h : pitch m = pitch n) : m = n := by
  have hdigits : ∀ j < 6, ∀ k < 6, Column.decimal 1 j = Column.decimal 1 k → j = k := by
    decide
  obtain ⟨hname, hdigit⟩ := append_inj (by rw [length_noteName, length_noteName]) h
  have hmod : m % 12 = n % 12 := congrArg Fin.val (noteName_inj _ _ hname)
  have hdiv := hdigits _ (by omega) _ (by omega) hdigit
  omega

theorem NoteKind.label_inj {k k' : NoteKind} (h : k.label = k'.label) : k = k' := by
  cases k <;> cases k' <;> first | rfl | exact absurd h (by decide)

theorem NoteKind.length_label (k : NoteKind) : k.label.length = 4 := by
  cases k <;> rfl

theorem Command.length_label (c : Command) : c.label.length = 4 := by
  cases c <;> rfl

/-- A command is told by its name. -/
theorem Command.label_inj {t t' : UInt8} (ht : ¬ t < 0xf0) (ht' : ¬ t' < 0xf0)
    (h : (ofByte t).label = (ofByte t').label) : t = t' := by
  have hnames : ∀ m < 16, ∀ n < 16, (ofByte (0xf0 + UInt8.ofNat m)).label =
      (ofByte (0xf0 + UInt8.ofNat n)).label → m = n := by
    decide
  have hnumber : ∀ {t : UInt8}, ¬ t < 0xf0 →
      ∃ n < 16, t = 0xf0 + UInt8.ofNat n ∧ n + 0xf0 = t.toNat := by
    intro t ht
    have hlt := t.toNat_lt
    have hge : (0xf0 : UInt8).toNat ≤ t.toNat := UInt8.le_iff_toNat_le.1 (UInt8.not_lt.1 ht)
    rw [show (0xf0 : UInt8).toNat = 0xf0 from rfl] at hge
    refine ⟨t.toNat - 0xf0, by omega, UInt8.toNat_inj.1 ?_, by omega⟩
    rw [UInt8.toNat_add, UInt8.toNat_ofNat', show (0xf0 : UInt8).toNat = 0xf0 from rfl]
    omega
  obtain ⟨m, hm, rfl, hmt⟩ := hnumber ht
  obtain ⟨n, hn, rfl, hnt⟩ := hnumber ht'
  rw [hnames m hm n hn h]

/-- The last field of a text is told by its length. -/
theorem field_inj {s s' t t' : String} (hlen : t.length = t'.length)
    (h : s ++ " " ++ t = s' ++ " " ++ t') : s = s' ∧ t = t' := by
  have h := congrArg String.toList h
  simp only [String.toList_append] at h
  obtain ⟨hs, ht⟩ := List.append_inj' h (by rw [String.length_toList, String.length_toList, hlen])
  exact ⟨String.toList_inj.1 (List.append_cancel_right hs), String.toList_inj.1 ht⟩

theorem length_hexByte (b : UInt8) : (hexByte b).length = 2 := Column.length_hex b.toNat_lt

theorem hexByte_inj {b b' : UInt8} (h : hexByte b = hexByte b') : b = b' :=
  UInt8.toNat_inj.1 (Column.hex_inj b.toNat_lt b'.toNat_lt h)

theorem length_hexLow (v : UInt16) : (Column.hex 4 v.toNat).length = 4 :=
  Column.length_hex v.toNat_lt

theorem low_six_lt (t : UInt8) : (t &&& 0x3f).toNat < 64 := by
  rw [UInt8.toNat_and]
  exact Nat.lt_succ_of_le Nat.and_le_right

theorem line_note {w : Word} (h : w.byte0 < 0xf0) : line w =
    pitch (w.byte0 &&& 0x3f).toNat ++ " " ++ (NoteKind.ofByte w.byte0).label ++ " " ++
      hexByte w.byte1 ++ " " ++ hexByte w.byte2 ++ " " ++ hexByte w.byte3 := by
  rw [line, Instruction.ofByte, if_pos h]

theorem line_command {w : Word} (h : ¬ w.byte0 < 0xf0) : line w =
    (Command.ofByte w.byte0).label ++ " " ++ hexByte w.byte1 ++ " " ++
      Column.hex 4 w.low.toNat := by
  rw [line, Instruction.ofByte, if_neg h]

/-- The text of a note is the longer one. -/
theorem length_line (w : Word) : (line w).length = if w.byte0 < 0xf0 then 17 else 12 := by
  split
  · next h =>
    rw [line_note h]
    simp only [String.length_append, length_pitch _ (low_six_lt w.byte0), NoteKind.length_label,
      length_hexByte]
    rfl
  · next h =>
    rw [line_command h]
    simp only [String.length_append, Command.length_label, length_hexByte, length_hexLow]
    rfl

end Pattern

/-! ## Words without the bit -/

namespace Word

/-- A word without bit 30 where that bit says nothing. -/
def settled (w : Word) : Word := ofBytes (settledByte w.byte0) w.byte1 w.byte2 w.byte3

theorem settled_inj {w w' : Word} : w.settled = w'.settled ↔
    settledByte w.byte0 = settledByte w'.byte0 ∧ w.byte1 = w'.byte1 ∧ w.byte2 = w'.byte2 ∧
      w.byte3 = w'.byte3 := by
  rw [settled, settled, Word.mk.injEq]
  exact ofBytes_inj

/-- The words are the same but for bit 30, in notes that are played at once. -/
def IsTwin (w w' : Word) : Prop :=
  w'.bits = w.bits ^^^ 0x40000000 ∧ w.byte0 < 0x80 ∧ w'.byte0 < 0x80

instance {w w' : Word} : Decidable (w.IsTwin w') := inferInstanceAs (Decidable (_ ∧ _))

theorem eq_iff_bytes {w w' : Word} : w = w' ↔ w.byte0 = w'.byte0 ∧ w.byte1 = w'.byte1 ∧
    w.byte2 = w'.byte2 ∧ w.byte3 = w'.byte3 := by
  rw [← ofBytes_inj, ofBytes_bytes, ofBytes_bytes]
  exact Word.mk.injEq .. ▸ Iff.rfl

theorem isTwin_iff {w w' : Word} : w.IsTwin w' ↔
    (w'.byte0 = w.byte0 ^^^ 0x40 ∧ w.byte0 < 0x80 ∧ w'.byte0 < 0x80) ∧ w.byte1 = w'.byte1 ∧
      w.byte2 = w'.byte2 ∧ w.byte3 = w'.byte3 := by
  have hflip : w'.bits = w.bits ^^^ 0x40000000 ↔ w'.byte0 = w.byte0 ^^^ 0x40 ∧
      w'.byte1 = w.byte1 ∧ w'.byte2 = w.byte2 ∧ w'.byte3 = w.byte3 := by
    rw [← ofBytes_inj, ofBytes_bytes, ← ofBytes_xor, ofBytes_bytes]
  rw [IsTwin, hflip]
  constructor
  · rintro ⟨⟨h0, h1, h2, h3⟩, hlow⟩
    exact ⟨⟨h0, hlow⟩, h1.symm, h2.symm, h3.symm⟩
  · rintro ⟨⟨h0, hlow⟩, h1, h2, h3⟩
    exact ⟨⟨h0, h1.symm, h2.symm, h3.symm⟩, hlow⟩

/-- Without the bit words are equal if, and only if, they are the same but for
    it. -/
theorem settled_eq_iff {w w' : Word} : w.settled = w'.settled ↔ w = w' ∨ w.IsTwin w' := by
  rw [settled_inj, settledByte_eq_iff, eq_iff_bytes, isTwin_iff, or_and_right]

/-- All commands, and all notes that wait or slide, are without it. -/
theorem settled_of_ge {w : Word} (h : ¬ w.byte0 < 0x80) : w.settled = w := by
  rw [settled, settledByte_of_ge h, ofBytes_bytes]

end Word

namespace Pattern

/-- The text of a word does not tell the bit. -/
theorem line_settled (w : Word) : line w.settled = line w := by
  have hlow : w.settled.low = w.low := by
    refine UInt16.toNat_inj.1 ?_
    rw [Word.toNat_low, Word.toNat_low, Word.settled, Word.byte2_ofBytes, Word.byte3_ofBytes]
  obtain ⟨hinstruction, hnote⟩ := ofByte_settledByte w.byte0
  rw [line, line, hlow, Word.settled, Word.byte0_ofBytes, Word.byte1_ofBytes, Word.byte2_ofBytes,
    Word.byte3_ofBytes, hinstruction, hnote]

/-- Texts are equal if, and only if, the words are without the bit. -/
theorem line_eq_iff {w w' : Word} : line w = line w' ↔ w.settled = w'.settled := by
  constructor
  · intro h
    rw [Word.settled_inj]
    have hlen := congrArg String.length h
    rw [length_line, length_line] at hlen
    by_cases hw : w.byte0 < 0xf0 <;> by_cases hw' : w'.byte0 < 0xf0
    · rw [line_note hw, line_note hw'] at h
      obtain ⟨h, h3⟩ := field_inj (by rw [length_hexByte, length_hexByte]) h
      obtain ⟨h, h2⟩ := field_inj (by rw [length_hexByte, length_hexByte]) h
      obtain ⟨h, h1⟩ := field_inj (by rw [length_hexByte, length_hexByte]) h
      obtain ⟨hpitch, hkind⟩ := field_inj (by simp only [NoteKind.length_label]) h
      have hnote : w.byte0 &&& 0x3f = w'.byte0 &&& 0x3f :=
        UInt8.toNat_inj.1 (pitch_inj (low_six_lt w.byte0) (low_six_lt w'.byte0) hpitch)
      refine ⟨?_, hexByte_inj h1, hexByte_inj h2, hexByte_inj h3⟩
      rw [settledByte_eq_or, settledByte_eq_or, hnote, NoteKind.label_inj hkind]
    · rw [if_pos hw, if_neg hw'] at hlen
      cases hlen
    · rw [if_neg hw, if_pos hw'] at hlen
      cases hlen
    · rw [line_command hw, line_command hw'] at h
      obtain ⟨h, hlow⟩ := field_inj (by rw [length_hexLow, length_hexLow]) h
      obtain ⟨hname, h1⟩ := field_inj (by rw [length_hexByte, length_hexByte]) h
      have hlow := Column.hex_inj (k := 3) w.low.toNat_lt w'.low.toNat_lt hlow
      rw [Word.toNat_low, Word.toNat_low] at hlow
      have hlt := w.byte3.toNat_lt
      have hlt' := w'.byte3.toNat_lt
      refine ⟨congrArg settledByte (Command.label_inj hw hw' hname), hexByte_inj h1,
        UInt8.toNat_inj.1 (by omega), UInt8.toNat_inj.1 (by omega)⟩
  · intro h
    rw [← line_settled w, h, line_settled]

end Pattern

/-! ## Tracks -/

variable {score score' : Score} {i : Slot} {ts : Tracks} {w w' : Word}

namespace Tracks

/-- The number of a note that is transposed takes no notice of the bit. -/
theorem transposed_settledByte (t x : UInt8) :
    settledByte t + x &&& 0x3f = t + x &&& 0x3f := by
  have hmod : ∀ a b : UInt8, (a + b &&& 0x3f).toNat = ((a &&& 0x3f).toNat + b.toNat) % 64 := by
    intro a b
    rw [UInt8.toNat_and, UInt8.toNat_and, UInt8.toNat_add]
    refine (Nat.and_two_pow_sub_one_eq_mod _ 6).trans ?_
    rw [show (0x3f : UInt8).toNat = 2 ^ 6 - 1 from rfl, Nat.and_two_pow_sub_one_eq_mod]
    omega
  rw [← UInt8.toNat_inj, hmod, hmod, (Pattern.ofByte_settledByte t).2]

/-- What a word does to a track takes no notice of the bit. -/
theorem execute_settled (score : Score) (i : Slot) (w : Word) (ts : Tracks) :
    execute score i w.settled ts = execute score i w ts := by
  by_cases h : w.byte0 < 0x80
  · have hplain := Pattern.ofByte_of_lt w.byte0 h
    have hset : Pattern.Instruction.ofByte w.settled.byte0 = .note .plain := by
      rw [Word.settled, Word.byte0_ofBytes, (Pattern.ofByte_settledByte w.byte0).1, hplain]
    have hword : noteWord ts[i].transpose .plain w.settled = noteWord ts[i].transpose .plain w := by
      conv_rhs => rw [← Word.ofBytes_bytes w]
      simp only [noteWord, Word.settled, Word.byte0_ofBytes, Word.withByte0_ofBytes,
        transposed_settledByte]
    rw [execute, execute, hset, hplain]
    simp only [playNote, hword]
  · rw [Word.settled_of_ge h]

end Tracks

/-! ## Tunes -/

/-- Two tunes have the same tables and are of the same kind: they differ in
    their words and in what no track reads. -/
structure Score.SharesTables (score score' : Score) : Prop where
  dialect : score'.dialect = score.dialect
  patterns : score'.patterns = score.patterns
  macros : score'.macros = score.macros

/-- Their patterns read the same, too. -/
structure Score.ListsAs (score score' : Score) : Prop extends score.SharesTables score' where
  lines : ∀ o, Among score.patterns o → ∀ step,
    (score.word? o step).map Pattern.line = (score'.word? o step).map Pattern.line

/-- A request does not read words. -/
theorem Machine.grant?_of_tables (h : score.SharesTables score') (m : Machine) (r : Option Request) :
    m.grant? score' r = m.grant? score r := by
  have hreceive : ∀ (w : Word) (c : Channel), c.receive score' w = c.receive score w := by
    intro w c
    simp only [Channel.receive, Score.macroStart?, h.macros, h.dialect]
  rcases r with _ | r
  · rfl
  · cases r with
    | dispatch w => simp only [grant?, grant, dispatch, hreceive]
    | _ => rfl

namespace Tracks

/-- Words of one text do the same to a track, in tunes with the same patterns. -/
theorem execute_of_line (h : score.SharesTables score') (hline : Pattern.line w = Pattern.line w')
    (i : Slot) (ts : Tracks) : execute score' i w' ts = execute score i w ts := by
  have htables : ∀ w, execute score' i w ts = execute score i w ts := by
    intro w
    simp only [execute, obey, Score.pattern?, h.patterns]
  rw [htables, ← execute_settled, ← execute_settled score i w, Pattern.line_eq_iff.1 hline]

/-- A track takes its next word alike in tunes in which this reads the same. -/
theorem step_of_line (h : score.SharesTables score')
    (hlines : (score.word? ts[i].base ts[i].step).map Pattern.line =
      (score'.word? ts[i].base ts[i].step).map Pattern.line) :
    step score' i ts = step score i ts := by
  rw [step, step]
  cases hw : score.word? ts[i].base ts[i].step with
  | none =>
    rw [hw] at hlines
    rw [Option.map_eq_none_iff.1 hlines.symm]
  | some w =>
    rw [hw] at hlines
    obtain ⟨w', hw', hline⟩ := Option.map_eq_some_iff.1 hlines.symm
    rw [hw']
    exact execute_of_line h hline.symm i _

/-- The words of a row in turn: the tracks stay at the patterns of the tune, and
    there each word reads the same. -/
theorem playWords_of_listsAs (h : score.ListsAs score') (i : Slot) : ∀ (n : Nat) (ts : Tracks)
    (m : Machine), Every (Track.Anchored score) ts →
      playWords score' i n ts m = playWords score i n ts m
  | 0, _, _, _ => rfl
  | n + 1, ts, m, hts => by
    have hstep := step_of_line h.toSharesTables (h.lines _ (hts i).base ts[i].step)
    have hrest := playWords_of_listsAs h i n (step score i ts).tracks
      (m.grant? score (step score i ts).request) (anchored_step hts i)
    rw [playWords, playWords, hstep, Machine.grant?_of_tables h.toSharesTables, hrest]

theorem simulateWords_of_listsAs (h : score.ListsAs score') (i : Slot) : ∀ (n : Nat) (ts : Tracks),
    Every (Track.Anchored score) ts → simulateWords score' i n ts = simulateWords score i n ts
  | 0, _, _ => rfl
  | n + 1, ts, hts => by
    have hstep := step_of_line h.toSharesTables (h.lines _ (hts i).base ts[i].step)
    have hrest := simulateWords_of_listsAs h i n (step score i ts).tracks (anchored_step hts i)
    rw [simulateWords, simulateWords, hstep, hrest]

/-- The row of a track is the same, with a machine and without. -/
theorem row_of_listsAs (h : score.ListsAs score') (i : Slot) {ts : Tracks}
    (hts : Every (Track.Anchored score) ts) :
    (∀ m, playRow score' i ts m = playRow score i ts m) ∧
      simulateRow score' i ts = simulateRow score i ts := by
  have henter := anchored_enter hts i
  constructor
  · intro m
    rw [playRow, playRow]
    cases hentry : enter i ts with
    | runs next =>
      rw [hentry] at henter
      exact playWords_of_listsAs h i rowBound next m henter
    | _ => rfl
  · rw [simulateRow, simulateRow]
    cases hentry : enter i ts with
    | runs next =>
      rw [hentry] at henter
      exact simulateWords_of_listsAs h i rowBound next henter
    | _ => rfl

end Tracks

open Pattern Tracks

/-- Two words have one text if, and only if, they are equal or differ in bit 30
    alone and begin with a byte below 0x80.  A track that comes to the one or to
    the other does the same, whatever state it and the machine are in: the
    tracks, the machine and what follows in the row are the same.  So a row is
    the same in two tunes the patterns of which read the same, with a machine
    and without. -/
theorem listing_law :
    (∀ w w' : Word, line w = line w' ↔ w = w' ∨ w.IsTwin w') ∧
    (∀ w w' : Word, line w = line w' → ∀ score score' : Score, score.SharesTables score' →
      ∀ (i : Slot) (ts : Tracks) (m : Machine),
        score.word? ts[i].base ts[i].step = some w →
        score'.word? ts[i].base ts[i].step = some w' →
        step score i ts = step score' i ts ∧
          m.grant? score (step score i ts).request =
            m.grant? score' (step score' i ts).request) ∧
    ∀ score score' : Score, score.ListsAs score' → ∀ (i : Slot) (ts : Tracks),
      Every (Track.Anchored score) ts →
      (∀ m, playRow score i ts m = playRow score' i ts m) ∧
        simulateRow score i ts = simulateRow score' i ts := by
  refine ⟨fun w w' => line_eq_iff.trans Word.settled_eq_iff, ?_, ?_⟩
  · intro w w' hline score score' htables i ts m hw hw'
    have hstep : step score' i ts = step score i ts :=
      step_of_line htables (by rw [hw, hw', Option.map_some, Option.map_some, hline])
    rw [hstep, Machine.grant?_of_tables htables]
    exact ⟨rfl, rfl⟩
  · intro score score' h i ts hts
    obtain ⟨hplay, hsimulate⟩ := row_of_listsAs h i hts
    exact ⟨fun m => (hplay m).symm, hsimulate.symm⟩

/-- A tune of one note. -/
def noteTune (note : UInt32) : ByteArray :=
  Player.smallTune 5 [note, 0xf0000000] [0x07000000]

/-- Its music data. -/
def noteMusic (note : UInt32) : ByteArray :=
  ⟨(Player.numberBytes (0 :: List.replicate 7 0xff00) ++
    Player.wordBytes [0x218, 0x220, note, 0xf0000000, 0x07000000, 0xffffffff]).toArray⟩

/-- The first track at the note. -/
def atNote : Tracks := (Octet.replicate {}).set (Slot.ofNat 0) { base := 24 }

/-- With the bit in the note and without it the music data reads the same. -/
theorem lines_noteMusic (o : UInt32) (ho : Among #[24] o) (step : UInt16) :
    ((Bytes.u32? (noteMusic 0x10000000) (o.toNat + step.toNat * 4)).map Word.mk).map line =
      ((Bytes.u32? (noteMusic 0x50000000) (o.toNat + step.toNat * 4)).map Word.mk).map line := by
  have hread : ∀ k < 10,
      ((Bytes.u32? (noteMusic 0x10000000) (k * 4)).map Word.mk).map line =
        ((Bytes.u32? (noteMusic 0x50000000) (k * 4)).map Word.mk).map line := by
    decide +kernel
  have hsize : (noteMusic 0x10000000).size = 40 ∧ (noteMusic 0x50000000).size = 40 := by
    decide +kernel
  have hword : ∃ k, o.toNat + step.toNat * 4 = k * 4 := by
    rcases ho with rfl | ho
    · exact ⟨step.toNat, Nat.zero_add _⟩
    · rw [List.mem_singleton.1 (Array.mem_toList_iff.2 ho)]
      exact ⟨step.toNat + 6, by rw [Nat.add_mul, Nat.add_comm]; rfl⟩
  obtain ⟨k, hk⟩ := hword
  rw [hk]
  rcases Nat.lt_or_ge k 10 with hlt | hge
  · exact hread k hlt
  · have hend : ∀ b : ByteArray, b.size = 40 → Bytes.u32? b (k * 4) = none := fun b hb =>
      Bytes.u32?_eq_none_iff.2 (by omega)
    rw [hend _ hsize.1, hend _ hsize.2]

/-- What a track reads of a tune. -/
def Tune.parts (tune : Tune) : Dialect × Array UInt32 × Array UInt32 × ByteArray :=
  (tune.score.dialect, tune.score.patterns, tune.score.macros, tune.score.music)

/-- The same tune with the bit in its note and without it. -/
theorem listing_law_noteTune : ∃ tune tune',
    load (noteTune 0x10000000) (some ⟨#[]⟩) = .ok tune ∧
    load (noteTune 0x50000000) (some ⟨#[]⟩) = .ok tune' ∧
      line ⟨0x10000000⟩ = line ⟨0x50000000⟩ ∧ tune.score.ListsAs tune'.score ∧
      tune.score.word? atNote[Slot.ofNat 0].base atNote[Slot.ofNat 0].step = some ⟨0x10000000⟩ ∧
      tune'.score.word? atNote[Slot.ofNat 0].base atNote[Slot.ofNat 0].step = some ⟨0x50000000⟩ ∧
      Every (Track.Anchored tune.score) atNote ∧
      step tune.score (Slot.ofNat 0) atNote = step tune'.score (Slot.ofNat 0) atNote ∧
      ∀ m, playRow tune.score (Slot.ofNat 0) atNote m =
        playRow tune'.score (Slot.ofNat 0) atNote m := by
  have hload : (load (noteTune 0x10000000) (some ⟨#[]⟩)).toOption.map Tune.parts =
      some (⟨false, false⟩, #[24], #[32], noteMusic 0x10000000) := by
    decide +kernel
  have hload' : (load (noteTune 0x50000000) (some ⟨#[]⟩)).toOption.map Tune.parts =
      some (⟨false, false⟩, #[24], #[32], noteMusic 0x50000000) := by
    decide +kernel
  obtain ⟨tune, htune, hscore⟩ := Option.map_eq_some_iff.1 hload
  obtain ⟨tune', htune', hscore'⟩ := Option.map_eq_some_iff.1 hload'
  simp only [Tune.parts, Prod.mk.injEq] at hscore hscore'
  obtain ⟨hdialect, hpatterns, hmacros, hmusic⟩ := hscore
  obtain ⟨hdialect', hpatterns', hmacros', hmusic'⟩ := hscore'
  have htwins : line ⟨0x10000000⟩ = line ⟨0x50000000⟩ :=
    (listing_law.1 _ _).2 (.inr (by decide))
  have hlists : tune.score.ListsAs tune'.score :=
    { dialect := hdialect'.trans hdialect.symm
      patterns := hpatterns'.trans hpatterns.symm
      macros := hmacros'.trans hmacros.symm
      lines := fun o ho step => by
        rw [hpatterns] at ho
        rw [Score.word?, Score.word?, hmusic, hmusic']
        exact lines_noteMusic o ho step }
  have hword : tune.score.word? atNote[Slot.ofNat 0].base atNote[Slot.ofNat 0].step =
      some ⟨0x10000000⟩ := by
    rw [Score.word?, hmusic]
    decide +kernel
  have hword' : tune'.score.word? atNote[Slot.ofNat 0].base atNote[Slot.ofNat 0].step =
      some ⟨0x50000000⟩ := by
    rw [Score.word?, hmusic']
    decide +kernel
  have hplaces : ∀ i : Slot, (atNote[i].base = 0 ∨ atNote[i].base = 24) ∧
      atNote[i].returnBase = 0 := by
    decide
  have hanchored : Every (Track.Anchored tune.score) atNote := fun i => by
    obtain ⟨hbase, hback⟩ := hplaces i
    refine ⟨?_, .inl hback⟩
    rw [Among, hpatterns]
    simpa using hbase
  refine ⟨tune, tune', Player.eq_ok_of_toOption htune, Player.eq_ok_of_toOption htune', htwins,
    hlists, hword, hword', hanchored, ?_, ?_⟩
  · exact (listing_law.2.1 _ _ htwins _ _ hlists.toSharesTables (Slot.ofNat 0) atNote {} hword
      hword').1
  · exact (listing_law.2.2 _ _ hlists (Slot.ofNat 0) atNote hanchored).1

end PaulaReplay
